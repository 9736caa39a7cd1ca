import Mathlib.Data.Option.Basic

namespace SiriusProxy

/-- `Instant` and `DateTime<Utc>` in nanoseconds. -/
abbrev Instant := Nat

/-- A `Duration` of whole seconds in nanoseconds. -/
def fromSecs (seconds : Nat) : Nat := seconds * 1000000000

theorem lt_later (t : Instant) (wait : Nat) : t < t + wait + 1 := Nat.lt_succ_of_le (Nat.le_add_right t wait)

def u32Max : Nat := 4294967295

/-- `saturating_add(1)` of a `u32` counter. -/
def satSucc (n : Nat) : Nat := min (n + 1) u32Max

theorem satSucc_of_lt {n : Nat} (below : n < u32Max) : satSucc n = n + 1 :=
  Nat.min_eq_left below

theorem satSucc_le (n : Nat) : satSucc n ≤ u32Max := Nat.min_le_right _ _

theorem satSucc_of_eq {n : Nat} (full : n = u32Max) : satSucc n = u32Max :=
  Nat.min_eq_right (full ▸ Nat.le_succ n)

theorem le_satSucc {m n : Nat} (next : m ≤ n + 1) (bounded : m ≤ u32Max) : m ≤ satSucc n :=
  Nat.le_min.mpr ⟨next, bounded⟩

/-- `usize` subtraction, `none` where it would underflow. -/
def checkedSub (a b : Nat) : Option Nat := if b ≤ a then some (a - b) else none

theorem checkedSub_eq {a b : Nat} (order : b ≤ a) : checkedSub a b = some (a - b) := if_pos order

theorem checkedSub_add (a b : Nat) : checkedSub (a + b) a = some b := by
  rw [checkedSub_eq (Nat.le_add_right a b), Nat.add_sub_cancel_left]

/-- What a run of two steps has passed through. -/
theorem bind_ok {ε α β : Type} {m : Except ε α} {f : α → Except ε β} {b : β} (ok : (m >>= f) = .ok b) :
    ∃ a, m = .ok a ∧ f a = .ok b := by
  cases m with
  | error e => cases ok
  | ok a => exact ⟨a, rfl, ok⟩

/-- The application codes that the client itself acts on. -/
def masterVersionMismatch : String := "MASTER_VERSION_MISMATCH"
def clientUpdateRequired : String := "CLIENT_UPDATE_REQUIRED"

inductive AppError where
  | nodeUnavailable
  | peerAccountUnavailable
  | peerIdentityMismatch
  | unsupportedRegionOperation
  | protocolDefinition
  | config (text : String)
  | invalidRequest
  | unauthorized
  | forbidden
  | authUnavailable
  | notFound
  | accountUnavailable
  | upstreamUnavailable
  | timeout
  | transport
  | proxy
  | protocol
  | grpc (status : Nat)
  | maintenance (status : Nat)
  | snapshotUnavailable
  | masterUnavailable
  deriving DecidableEq, Repr

/-- `str::starts_with`. -/
def startsWith (text start : String) : Bool := start.toList.isPrefixOf text.toList

def isAsciiUpper (c : Char) : Bool := 'A' ≤ c && c ≤ 'Z'
def isAsciiLower (c : Char) : Bool := 'a' ≤ c && c ≤ 'z'
def isAsciiDigit (c : Char) : Bool := '0' ≤ c && c ≤ '9'
def isAsciiAlphanumeric (c : Char) : Bool := isAsciiUpper c || isAsciiLower c || isAsciiDigit c

end SiriusProxy
