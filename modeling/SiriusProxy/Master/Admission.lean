import SiriusProxy.Lib.Polled

namespace SiriusProxy.Admission
open Polled

def chunkLen : Nat := 64 * 1024

/-- The bounds of a `SizeHint`. -/
structure SizeHint where
  lower : UInt64 := 0
  upper : Option UInt64 := none
  deriving DecidableEq, Repr

/-- `set_lower` and `set_upper` assert that the bounds stay in order; none is a panic. -/
def SizeHint.setLower (hint : SizeHint) (value : UInt64) : Option SizeHint :=
  if hint.upper.all fun upper => decide (value ≤ upper) then some { hint with lower := value } else none

def SizeHint.setUpper (hint : SizeHint) (value : UInt64) : Option SizeHint :=
  if hint.lower ≤ value then some { hint with upper := some value } else none

/-- A body: what a poll answers, with the state after it, and what the body says of its rest. -/
structure Body (σ τ ε : Type) where
  pollFrame : σ → Poll UInt8 τ ε × σ
  isEndStream : σ → Bool
  sizeHint : σ → SizeHint

/-- A body with the rest of an oversized data frame. -/
structure Held (σ : Type) where
  inner : σ
  pending : List UInt8 := []

variable {σ τ ε : Type} (body : Body σ τ ε)

namespace Held

/-- Hands on a copy of at most `chunkLen` of the held bytes. -/
def handOn (held : Held σ) : Poll UInt8 τ ε × Held σ :=
  let n := min held.pending.length chunkLen
  (.ready (some (.ok (.data (held.pending.take n)))), { held with pending := held.pending.drop n })

def pollFrame (held : Held σ) : Poll UInt8 τ ε × Held σ :=
  if held.pending.isEmpty then
    match body.pollFrame held.inner with
    | (.pending, inner) => (.pending, { held with inner := inner })
    | (.ready (some (.ok (.data data))), inner) =>
      if chunkLen < data.length then handOn { inner := inner, pending := data }
      else (.ready (some (.ok (.data data))), { held with inner := inner })
    | (.ready (some (.ok (.trailers fields))), inner) =>
      (.ready (some (.ok (.trailers fields))), { held with inner := inner })
    | (.ready (some (.error error)), inner) => (.ready (some (.error error)), { held with inner := inner })
    | (.ready none, inner) => (.ready none, { held with inner := inner })
  else handOn held

def isEndStream (held : Held σ) : Bool := held.pending.isEmpty && body.isEndStream held.inner

def sizeHint (held : Held σ) : Option SizeHint := do
  let inner := body.sizeHint held.inner
  let pending := UInt64.ofNat held.pending.length
  let hint ← SizeHint.setLower {} (inner.lower + pending)
  match inner.upper with
  | some upper => hint.setUpper (upper + pending)
  | none => some hint

end Held

variable {body} {held next : Held σ} {content : List (UInt8 ⊕ τ)}

/-- The bounds of the inner body leave room for the held bytes. -/
def Room (body : Body σ τ ε) (held : Held σ) : Prop :=
  (body.sizeHint held.inner).lower.toNat + held.pending.length < UInt64.size ∧
    ∀ upper, (body.sizeHint held.inner).upper = some upper → upper.toNat + held.pending.length < UInt64.size

theorem Room.drop {s : σ} {bytes : List UInt8} (room : Room body ⟨s, bytes⟩) :
    Room body ⟨s, bytes.drop chunkLen⟩ := by
  have shorter : (bytes.drop chunkLen).length ≤ bytes.length := by
    rw [List.length_drop]
    exact Nat.sub_le _ _
  exact ⟨Nat.lt_of_le_of_lt (Nat.add_le_add_left shorter _) room.1, fun upper found =>
    Nat.lt_of_le_of_lt (Nat.add_le_add_left shorter _) (room.2 upper found)⟩

/-- A table of one byte more than a chunk, and trailers. -/
def table : List UInt8 := List.replicate (chunkLen + 1) 7

end SiriusProxy.Admission
