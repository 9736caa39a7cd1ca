import SiriusProxy.Lib.Retry

namespace Commands
open Relation
variable {σ C E α β : Type} {A : C → Type}

/-- Others do not change it. -/
def Stable (env : σ → σ → Prop) (P : σ → Prop) : Prop := ∀ s t, env s t → P s → P t

section Stable
variable {env : σ → σ → Prop} {P R : σ → Prop} {s t : σ}

theorem Stable.later (stable : Stable env P) (later : ReflTransGen env s t) (held : P s) : P t := by
  induction later with
  | refl => exact held
  | tail _ others ih => exact stable _ _ others ih

theorem Stable.both (first : Stable env P) (second : Stable env R) : Stable env fun s => P s ∧ R s :=
  fun s t others held => ⟨first s t others held.1, second s t others held.2⟩

theorem Stable.const (fact : Prop) : Stable env fun _ => fact := fun _ _ _ held => held

end Stable

/-- From a state in `I` and `P` each command of the program does what `keeps` permits, whatever others do,
and the program ends in `I` and, with a value, in `Q` of it. -/
def Triple (effect : σ → (c : C) → Option (A c) × σ) (env keeps : σ → σ → Prop) (I P : σ → Prop) (p : Prog A E α)
    (Q : α → σ → Prop) : Prop :=
  ∀ s, I s → P s → wp effect env keeps p (fun r t => I t ∧ ∀ a, r = .ok a → Q a t) s

/-- Others keep the invariant, and so does what is permitted. -/
structure Upholds (effect : σ → (c : C) → Option (A c) × σ) (env keeps : σ → σ → Prop) (I : σ → Prop) : Prop where
  others : Stable env I
  own : ∀ s c, I s → keeps s (effect s c).2 → I (effect s c).2

/-- What others and permitted commands do not take away. -/
structure Lasting (env keeps : σ → σ → Prop) (P : σ → Prop) : Prop where
  stable : Stable env P
  own : ∀ s t, keeps s t → P s → P t

variable {effect : σ → (c : C) → Option (A c) × σ} {env keeps : σ → σ → Prop} {I P P' : σ → Prop} {Q Q' : α → σ → Prop}
  {R : β → σ → Prop}

/-- A fact that nobody takes away still holds at the end. By induction on the program, over the steps of others and
the commands alike. -/
theorem Lasting.frame {p : Prog A E α} {s : σ} {Q : Except E α → σ → Prop} (lasting : Lasting env keeps P)
    (pre : wp effect env keeps p Q s) (held : P s) : wp effect env keeps p (fun r t => Q r t ∧ P t) s := by
  induction p generalizing s with
  | done r => exact fun t later => ⟨pre t later, lasting.stable.later later held⟩
  | call c next ih =>
    intro t later
    obtain ⟨kept, answered, lost, failed⟩ := pre t later
    have there := lasting.stable.later later held
    have behind := lasting.own _ _ kept there
    exact ⟨kept, ih _ answered behind, ih _ lost behind, ih _ failed there⟩

/-- The invariant holds wherever a run stands, also where it has stopped on the way. By induction on the run. -/
theorem Runs.upheld {p : Prog A E α} {s u : σ} {o : Outcome E α} {Q : Except E α → σ → Prop}
    (run : Runs effect env p s o u) (upholds : Upholds effect env keeps I) (pre : wp effect env keeps p Q s) (inv : I s) :
    I u := by
  induction run with
  | done => exact inv
  | stop => exact inv
  | other moved _ ih => exact ih (wp_later pre (.single moved)) (upholds.others _ _ moved inv)
  | answered _ ih =>
    obtain ⟨kept, answered, -, -⟩ := pre _ .refl
    exact ih answered (upholds.own _ _ inv kept)
  | lost _ ih =>
    obtain ⟨kept, -, lost, -⟩ := pre _ .refl
    exact ih lost (upholds.own _ _ inv kept)
  | failed _ ih =>
    obtain ⟨-, -, -, failed⟩ := pre _ .refl
    exact ih failed inv

namespace Triple

theorem conseq {p : Prog A E α} (triple : Triple effect env keeps I P p Q) (stronger : ∀ s, P' s → P s)
    (weaker : ∀ a s, Q a s → Q' a s) : Triple effect env keeps I P' p Q' :=
  fun s inv held => wp_mono (triple s inv (stronger s held)) fun _ t post =>
    ⟨post.1, fun a same => weaker a t (post.2 a same)⟩

/-- A fact that does not speak of the state. -/
theorem assume {p : Prog A E α} {fact : Prop} (triple : fact → Triple effect env keeps I P p Q) :
    Triple effect env keeps I (fun s => fact ∧ P s) p Q :=
  fun s inv held => triple held.1 s inv held.2

/-- What lasts is carried along. -/
theorem frame {F : σ → Prop} {p : Prog A E α} (triple : Triple effect env keeps I P p Q) (lasting : Lasting env keeps F) :
    Triple effect env keeps I (fun s => P s ∧ F s) p fun a s => Q a s ∧ F s :=
  fun s inv held => wp_mono (lasting.frame (triple s inv held.1) held.2) fun _ _ post =>
    ⟨post.1.1, fun a same => ⟨post.1.2 a same, post.2⟩⟩

/-- A part that does less and keeps more. -/
theorem widen {p : Prog A E α} {wider : σ → σ → Prop} {J : σ → Prop} (triple : Triple effect env keeps I P p Q)
    (within : ∀ s t, keeps s t → wider s t) (weaker : ∀ s, I s → J s) :
    Triple effect env wider J (fun s => I s ∧ P s) p fun a s => I s ∧ Q a s :=
  fun s _ held => wp_mono (wp_keeps (triple s held.1 held.2) within) fun _ t post =>
    ⟨weaker t post.1, fun a same => ⟨post.1, post.2 a same⟩⟩

/-- The rule of sequence: what the first part leaves is what the second starts from. -/
theorem bind {p : Prog A E α} {f : α → Prog A E β} (first : Triple effect env keeps I P p Q)
    (rest : ∀ a, Triple effect env keeps I (Q a) (f a) R) : Triple effect env keeps I P (p >>= f) R := by
  intro s inv held
  refine wp_bind (wp_mono (first s inv held) fun r t post => ?_)
  cases r with
  | ok a => exact rest a t post.1 (post.2 a rfl)
  | error e =>
    refine ⟨post.1, fun b same => ?_⟩
    cases same

section Upholds
variable (upholds : Upholds effect env keeps I)
include upholds

theorem pure {a : α} (stable : Stable env (Q a)) (holds : ∀ s, P s → Q a s) :
    Triple effect env keeps I P (Pure.pure a : Prog A E α) Q := by
  intro s inv held t later
  refine ⟨upholds.others.later later inv, fun b same => ?_⟩
  cases same
  exact stable.later later (holds s held)

theorem throw {e : E} : Triple effect env keeps I P (Prog.throw e : Prog A E α) Q := by
  intro s inv _ t later
  refine ⟨upholds.others.later later inv, fun b same => ?_⟩
  cases same

theorem ofExcept {r : Except E α} (stable : ∀ a, Stable env (Q a)) (holds : ∀ a, r = .ok a → ∀ s, P s → Q a s) :
    Triple effect env keeps I P (Prog.ofExcept r : Prog A E α) Q := by
  cases r with
  | ok a => exact pure upholds (stable a) (holds a rfl)
  | error e => exact throw upholds

/-- The rule of a command whose failure ends the program. Facts that others leave alone may be used before it and
hold after it. -/
theorem ask {c : C} {Q : A c → σ → Prop} {e : E} (stable : Stable env P)
    (kept : ∀ s, I s → P s → keeps s (effect s c).2) (after : ∀ a, Stable env (Q a))
    (step : ∀ s a, I s → P s → (effect s c).1 = some a → Q a (effect s c).2) :
    Triple effect env keeps I P (Prog.ask c e) Q := by
  intro s inv held
  have there (t : σ) (later : ReflTransGen env s t) : I t ∧ P t :=
    ⟨upholds.others.later later inv, stable.later later held⟩
  have behind (t : σ) (later : ReflTransGen env s t) : I (effect t c).2 :=
    upholds.own t c (there t later).1 (kept t (there t later).1 (there t later).2)
  refine wp_ask (fun t later => kept t (there t later).1 (there t later).2) ?_ ?_ ?_
  · intro t a u later answer more
    refine ⟨upholds.others.later more (behind t later), fun b same => ?_⟩
    cases same
    exact (after a).later more (step t a (there t later).1 (there t later).2 answer)
  · intro t u later more
    refine ⟨upholds.others.later more (behind t later), fun b same => ?_⟩
    cases same
  · intro t later
    refine ⟨(there t later).1, fun b same => ?_⟩
    cases same

/-- The rule of a command whose failure is an answer, with the two ways in which it may have failed. -/
theorem attempt {c : C} {Q : Option (A c) → σ → Prop} (stable : Stable env P)
    (kept : ∀ s, I s → P s → keeps s (effect s c).2) (after : ∀ a, Stable env (Q a))
    (step : ∀ s a, I s → P s → (effect s c).1 = some a → Q (some a) (effect s c).2)
    (lost : ∀ s, I s → P s → Q none (effect s c).2) (failed : ∀ s, P s → Q none s) :
    Triple effect env keeps I P (Prog.attempt c : Prog A E (Option (A c))) Q := by
  intro s inv held
  have there (t : σ) (later : ReflTransGen env s t) : I t ∧ P t :=
    ⟨upholds.others.later later inv, stable.later later held⟩
  have behind (t : σ) (later : ReflTransGen env s t) : I (effect t c).2 :=
    upholds.own t c (there t later).1 (kept t (there t later).1 (there t later).2)
  refine wp_attempt (fun t later => kept t (there t later).1 (there t later).2) ?_ ?_ ?_
  · intro t a u later answer more
    refine ⟨upholds.others.later more (behind t later), fun b same => ?_⟩
    cases same
    exact (after _).later more (step t a (there t later).1 (there t later).2 answer)
  · intro t u later more
    refine ⟨upholds.others.later more (behind t later), fun b same => ?_⟩
    cases same
    exact (after _).later more (lost t (there t later).1 (there t later).2)
  · intro t later
    refine ⟨(there t later).1, fun b same => ?_⟩
    cases same
    exact failed t (there t later).2

/-- Repeated attempts, with what lasts through all of them. -/
theorem retry {last : E} {again : E → Nat → Bool} {pause : Nat → Prog A E Unit} {body : Prog A E α}
    (lasting : Lasting env keeps P) (after : ∀ a, Stable env (Q a)) (tried : Triple effect env keeps I P body Q)
    (paused : ∀ k, Triple effect env keeps I P (pause k) fun _ _ => True) (n k : Nat) :
    Triple effect env keeps I P (Prog.retry last again pause body n k) Q := by
  intro s inv held
  refine wp_retry (P := fun t => I t ∧ P t) (fun t begun => ?_) (fun k t begun => ?_) ?_ n k ⟨inv, held⟩
  · refine wp_mono (lasting.frame (tried t begun.1 begun.2) begun.2) fun r u post => ?_
    cases r with
    | ok a =>
      intro v later
      refine ⟨upholds.others.later later post.1.1, fun b same => ?_⟩
      cases same
      exact (after a).later later (post.1.2 a rfl)
    | error e => exact ⟨post.1.1, post.2⟩
  · exact wp_mono (lasting.frame (paused k t begun.1 begun.2) begun.2) fun r u post => ⟨post.1.1, post.2⟩
  · intro e t u begun later
    refine ⟨upholds.others.later later begun.1, fun a same => ?_⟩
    cases same

end Upholds

/-- What a run of the program leaves, ended or stopped. -/
theorem run {p : Prog A E α} {s t : σ} {o : Outcome E α} (run : Runs effect env p s o t)
    (upholds : Upholds effect env keeps I) (triple : Triple effect env keeps I P p Q) (inv : I s) (held : P s) :
    I t ∧ ∀ a, o = .ended (.ok a) → Q a t := by
  have pre := triple s inv held
  refine ⟨run.upheld upholds pre inv, fun a same => ?_⟩
  exact ((run.sound pre).2 (.ok a) same).2 a rfl

end Triple

end Commands
