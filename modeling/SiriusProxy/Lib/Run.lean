import Mathlib.Data.List.Basic

namespace Run
universe u v
variable {σ : Type u} {ℓ : Type v}

/-- States reached from `initial` by enabled steps, each of which meets `allowed` in the
state it is taken from. With `fun _ _ => True` these are all runs of the system. -/
inductive Reach (step : σ → ℓ → Option σ) (allowed : σ → ℓ → Prop) (initial : σ) : σ → Prop
  | start : Reach step allowed initial initial
  | next {s t : σ} {l : ℓ} : Reach step allowed initial s → allowed s l → step s l = some t →
      Reach step allowed initial t

/-- The run rule: what holds initially and is kept by every allowed step holds in every
reached state. -/
theorem Reach.invariant {step : σ → ℓ → Option σ} {allowed : σ → ℓ → Prop} {initial current : σ}
    {P : σ → Prop} (reach : Reach step allowed initial current) (base : P initial)
    (keep : ∀ s l t, P s → allowed s l → step s l = some t → P t) : P current := by
  induction reach with
  | start => exact base
  | next _ permitted taken ih => exact keep _ _ _ ih permitted taken

theorem Reach.weaken {step : σ → ℓ → Option σ} {allowed more : σ → ℓ → Prop} {initial current : σ}
    (reach : Reach step allowed initial current) (wider : ∀ s l, allowed s l → more s l) :
    Reach step more initial current := by
  induction reach with
  | start => exact .start
  | next _ permitted taken ih => exact .next ih (wider _ _ permitted) taken

theorem Reach.trans {step : σ → ℓ → Option σ} {allowed : σ → ℓ → Prop} {initial middle current : σ}
    (first : Reach step allowed initial middle) (second : Reach step allowed middle current) :
    Reach step allowed initial current := by
  induction second with
  | start => exact first
  | next _ permitted taken ih => exact .next ih permitted taken

/-- A run with the state before each of its steps. -/
inductive Path (step : σ → ℓ → Option σ) : σ → List (σ × ℓ) → σ → Prop
  | done {s : σ} : Path step s [] s
  | next {s t u : σ} {l : ℓ} {rest : List (σ × ℓ)} : step s l = some t → Path step t rest u →
      Path step s ((s, l) :: rest) u

theorem Path.invariant {step : σ → ℓ → Option σ} {before after : σ} {visits : List (σ × ℓ)} {P : σ → Prop}
    (path : Path step before visits after) (base : P before)
    (keep : ∀ s l t, P s → (s, l) ∈ visits → step s l = some t → P t) : P after := by
  induction path with
  | done => exact base
  | next taken _ ih =>
    exact ih (keep _ _ _ base List.mem_cons_self taken) fun s l t held member =>
      keep s l t held (List.mem_cons_of_mem _ member)

/-- Executes a list of labels; `none` as soon as one of them is not enabled. -/
def exec (step : σ → ℓ → Option σ) : σ → List ℓ → Option σ
  | s, [] => some s
  | s, l :: rest => (step s l).bind fun t => exec step t rest

/-- The steps of an execution, each with the state before it. -/
def visits (step : σ → ℓ → Option σ) : σ → List ℓ → List (σ × ℓ)
  | _, [] => []
  | s, l :: rest => (s, l) :: match step s l with
    | some t => visits step t rest
    | none => []

theorem mem_visits {step : σ → ℓ → Option σ} {before : σ} {labels : List ℓ} {visit : σ × ℓ}
    (member : visit ∈ visits step before labels) : visit.2 ∈ labels := by
  induction labels generalizing before with
  | nil => exact absurd member List.not_mem_nil
  | cons l rest ih =>
    rcases List.mem_cons.mp member with rfl | later
    · exact List.mem_cons_self
    split at later
    · exact List.mem_cons_of_mem l (ih later)
    · exact absurd later List.not_mem_nil

theorem path_of_exec {step : σ → ℓ → Option σ} {before after : σ} {labels : List ℓ}
    (run : exec step before labels = some after) : Path step before (visits step before labels) after := by
  induction labels generalizing before with
  | nil =>
    cases Option.some.inj run
    exact .done
  | cons l rest ih =>
    obtain ⟨middle, taken, run⟩ := Option.bind_eq_some_iff.mp run
    simp only [visits, taken]
    exact .next taken (ih run)

/-- A run of labels that are allowed everywhere. -/
theorem Reach.exec_allowed {step : σ → ℓ → Option σ} {allowed : σ → ℓ → Prop} {initial before after : σ}
    {labels : List ℓ} (reach : Reach step allowed initial before) (run : Run.exec step before labels = some after)
    (free : ∀ l ∈ labels, ∀ s, allowed s l) : Reach step allowed initial after := by
  induction labels generalizing before with
  | nil =>
    cases Option.some.inj run
    exact reach
  | cons l rest ih =>
    obtain ⟨middle, taken, run⟩ := Option.bind_eq_some_iff.mp run
    have first := free l List.mem_cons_self before
    exact ih (.next reach first taken) run fun l member => free l (List.mem_cons_of_mem _ member)

/-- A run whose steps are found allowed as it is executed. -/
theorem reach_of_allowed_exec {step : σ → ℓ → Option σ} {allowed : σ → ℓ → Prop} [∀ s l, Decidable (allowed s l)]
    {initial before after : σ} {labels : List ℓ} (reach : Reach step allowed initial before)
    (run : Run.exec (fun s l => if allowed s l then step s l else none) before labels = some after) :
    Reach step allowed initial after := by
  induction labels generalizing before with
  | nil =>
    cases Option.some.inj run
    exact reach
  | cons l rest ih =>
    obtain ⟨middle, taken, run⟩ := Option.bind_eq_some_iff.mp run
    obtain ⟨permitted, taken⟩ := Option.ite_none_right_eq_some.mp taken
    exact ih (.next reach permitted taken) run

theorem Reach.exec {step : σ → ℓ → Option σ} {initial before after : σ} {labels : List ℓ}
    (reach : Reach step (fun _ _ => True) initial before) (run : Run.exec step before labels = some after) :
    Reach step (fun _ _ => True) initial after :=
  reach.exec_allowed run fun _ _ _ => trivial

theorem reach_of_exec {step : σ → ℓ → Option σ} {initial current : σ} {labels : List ℓ}
    (run : exec step initial labels = some current) : Reach step (fun _ _ => True) initial current :=
  Reach.start.exec run

end Run
