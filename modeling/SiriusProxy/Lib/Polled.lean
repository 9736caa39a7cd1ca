import Mathlib.Data.List.Basic

/-! Streams of frames that are polled. -/
namespace Polled
variable {σ α τ ε : Type}

inductive Frame (α τ : Type) where
  | data (items : List α)
  | trailers (fields : τ)
  deriving DecidableEq, Repr

inductive Poll (α τ ε : Type) where
  | pending
  | ready (item : Option (Except ε (Frame α τ)))

/-- What a frame adds to the content of its stream. -/
def Frame.items : Frame α τ → List (α ⊕ τ)
  | .data chunk => chunk.map .inl
  | .trailers fields => [.inr fields]

/-- Polling from one state on yields this content until another state. -/
inductive Yields (poll : σ → Poll α τ ε × σ) : σ → List (α ⊕ τ) → σ → Prop
  | start {s : σ} : Yields poll s [] s
  | pending {s t u : σ} {content : List (α ⊕ τ)} (polled : poll s = (.pending, t)) (rest : Yields poll t content u) :
      Yields poll s content u
  | frame {s t u : σ} {frame : Frame α τ} {content : List (α ⊕ τ)}
      (polled : poll s = (.ready (some (.ok frame)), t)) (rest : Yields poll t content u) :
      Yields poll s (frame.items ++ content) u

/-- The stream yields this content and then its error, or none at its end. -/
def Ends (poll : σ → Poll α τ ε × σ) (s : σ) (content : List (α ⊕ τ)) (final : Option ε) : Prop :=
  ∃ t u, Yields poll s content t ∧ poll t = (.ready (final.map .error), u)

theorem Yields.trans {poll : σ → Poll α τ ε × σ} {s t u : σ} {first second : List (α ⊕ τ)}
    (before : Yields poll s first t) (after : Yields poll t second u) : Yields poll s (first ++ second) u := by
  induction before with
  | start => exact after
  | pending polled _ ih => exact .pending polled (ih after)
  | frame polled _ ih =>
    rw [List.append_assoc]
    exact .frame polled (ih after)

theorem Yields.one {poll : σ → Poll α τ ε × σ} {s t : σ} {frame : Frame α τ}
    (polled : poll s = (.ready (some (.ok frame)), t)) : Yields poll s frame.items t := by
  have yields := Yields.frame polled .start
  rwa [List.append_nil] at yields

/-- What holds of a state and is kept by every frame and pending poll holds wherever polling leads. -/
theorem Yields.invariant {poll : σ → Poll α τ ε × σ} {s t : σ} {content : List (α ⊕ τ)} {P : σ → Prop}
    (yields : Yields poll s content t) (base : P s) (waits : ∀ s t, P s → poll s = (.pending, t) → P t)
    (keeps : ∀ s frame t, P s → poll s = (.ready (some (.ok frame)), t) → P t) : P t := by
  induction yields with
  | start => exact base
  | pending polled _ ih => exact ih (waits _ _ base polled)
  | frame polled _ ih => exact ih (keeps _ _ _ base polled)

end Polled
