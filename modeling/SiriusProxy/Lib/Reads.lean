namespace Reads
variable {σ τ D A E F α β : Type}

/-- A program that only looks at a state; others may change the state between two looks. -/
inductive Prog (σ A E α : Type) where
  | done (r : Except E α)
  | look (q : σ → A) (next : A → Prog σ A E α)

namespace Prog

protected def bind : Prog σ A E α → (α → Prog σ A E β) → Prog σ A E β
  | .done (.ok a), f => f a
  | .done (.error e), _ => .done (.error e)
  | .look q next, f => .look q fun answer => (next answer).bind f

instance : Monad (Prog σ A E) where
  pure a := .done (.ok a)
  bind := Prog.bind

def throw (e : E) : Prog σ A E α := .done (.error e)

def ask (q : σ → A) : Prog σ A E A := .look q fun answer => .done (.ok answer)

/-- Runs to its end and hands on its value or its error. -/
def attempt : Prog σ A E α → Prog σ A E (Except E α)
  | .done r => .done (.ok r)
  | .look q next => .look q fun answer => (next answer).attempt

def mapError (f : E → F) : Prog σ A E α → Prog σ A F α
  | .done r => .done (r.mapError f)
  | .look q next => .look q fun answer => (next answer).mapError f

/-- Runs on a part of a larger state. -/
def zoom (part : τ → σ) : Prog σ A E α → Prog τ A E α
  | .done r => .done r
  | .look q next => .look (fun t => q (part t)) fun answer => (next answer).zoom part

end Prog

/-- The outcome when look number `i` finds `states i`, with the number of the next look. -/
def run (states : Nat → σ) : Nat → Prog σ A E α → Except E α × Nat
  | i, .done r => (r, i)
  | i, .look q next => run states (i + 1) (next (q (states i)))

/-- The outcome on a state that nobody changes. -/
def eval (s : σ) : Prog σ A E α → Except E α
  | .done r => r
  | .look q next => eval s (next (q s))

variable {states : Nat → σ} {s : σ} {d : D}

@[simp] theorem eval_done (r : Except E α) : eval s (.done r : Prog σ A E α) = r := rfl

@[simp] theorem eval_pure (a : α) : eval s (pure a : Prog σ A E α) = .ok a := rfl

@[simp] theorem eval_throw (e : E) : eval s (Prog.throw e : Prog σ A E α) = .error e := rfl

theorem eval_bind (p : Prog σ A E α) (f : α → Prog σ A E β) :
    eval s (p >>= f) = (eval s p).bind fun a => eval s (f a) := by
  induction p with
  | done r => cases r <;> rfl
  | look q next ih => exact ih (q s)

theorem eval_bind_ok {p : Prog σ A E α} {f : α → Prog σ A E β} {a : α} (first : eval s p = .ok a) :
    eval s (p >>= f) = eval s (f a) := by
  rw [eval_bind, first]
  rfl

theorem eval_bind_error {p : Prog σ A E α} {f : α → Prog σ A E β} {e : E} (first : eval s p = .error e) :
    eval s (p >>= f) = .error e := by
  rw [eval_bind, first]
  rfl

/-- A sequence that returns has returned from its first part. -/
theorem eval_bind_eq_ok {p : Prog σ A E α} {f : α → Prog σ A E β} {b : β} (both : eval s (p >>= f) = .ok b) :
    ∃ a, eval s p = .ok a ∧ eval s (f a) = .ok b := by
  rw [eval_bind] at both
  cases first : eval s p with
  | error e =>
    rw [first] at both
    cases both
  | ok a =>
    rw [first] at both
    exact ⟨a, rfl, both⟩

theorem eval_attempt (p : Prog σ A E α) : eval s p.attempt = .ok (eval s p) := by
  induction p with
  | done r => rfl
  | look q next ih => exact ih (q s)

theorem eval_zoom (part : τ → σ) (t : τ) (p : Prog σ A E α) : eval t (p.zoom part) = eval (part t) p := by
  induction p with
  | done r => rfl
  | look q next ih => exact ih (q (part t))

theorem eval_mapError (f : E → F) (p : Prog σ A E α) : eval s (p.mapError f) = (eval s p).mapError f := by
  induction p with
  | done r => rfl
  | look q next ih => exact ih (q s)

theorem run_bind_ok {p : Prog σ A E α} {f : α → Prog σ A E β} {i j : Nat} {a : α}
    (first : run states i p = (.ok a, j)) : run states i (p >>= f) = run states j (f a) := by
  induction p generalizing i with
  | done r =>
    cases first
    rfl
  | look q next ih => exact ih (q (states i)) first

theorem run_bind_error {p : Prog σ A E α} {f : α → Prog σ A E β} {i j : Nat} {e : E}
    (first : run states i p = (.error e, j)) : run states i (p >>= f) = (.error e, j) := by
  induction p generalizing i with
  | done r =>
    cases first
    rfl
  | look q next ih => exact ih (q (states i)) first

theorem run_bind_done {p : Prog σ A E α} (f : α → Except E β) (i : Nat) :
    (run states i (p >>= fun a => .done (f a))).1 = (run states i p).1.bind f := by
  cases ran : run states i p with
  | mk result j =>
    cases result with
    | error e => rw [run_bind_error ran]; rfl
    | ok a => rw [run_bind_ok ran]; rfl

theorem run_attempt (p : Prog σ A E α) (i : Nat) :
    run states i p.attempt = (.ok (run states i p).1, (run states i p).2) := by
  induction p generalizing i with
  | done r => rfl
  | look q next ih => exact ih (q (states i)) (i + 1)

theorem run_zoom (part : τ → σ) (states : Nat → τ) (p : Prog σ A E α) (i : Nat) :
    run states i (p.zoom part) = run (fun j => part (states j)) i p := by
  induction p generalizing i with
  | done r => rfl
  | look q next ih => exact ih (q (part (states i))) (i + 1)

theorem le_run (p : Prog σ A E α) (i : Nat) : i ≤ (run states i p).2 := by
  induction p generalizing i with
  | done r => exact Nat.le_refl i
  | look q next ih => exact Nat.le_trans (Nat.le_succ i) (ih (q (states i)) (i + 1))

/-- A run that finds the same state at every look is an evaluation. -/
theorem run_seen (p : Prog σ A E α) {i : Nat} (seen : ∀ j, i ≤ j → j < (run states i p).2 → states j = s) :
    (run states i p).1 = eval s p := by
  induction p generalizing i with
  | done r => rfl
  | look q next ih =>
    have here : states i = s := seen i (Nat.le_refl i) (le_run (next (q (states i))) (i + 1))
    rw [run, eval, here]
    rw [run, here] at seen
    exact ih (q s) fun j after => seen j (Nat.le_of_succ_le after)

theorem run_still (p : Prog σ A E α) {i : Nat} (still : ∀ j, i ≤ j → states j = s) :
    (run states i p).1 = eval s p :=
  run_seen p fun j after _ => still j after

/-- Whatever the looks find, a value that the program returns meets `P`. -/
def Ensures (P : α → Prop) : Prog σ A E α → Prop
  | .done (.ok a) => P a
  | .done (.error _) => True
  | .look _ next => ∀ answer, Ensures P (next answer)

section Ensures
variable {P : α → Prop} {Q : β → Prop}

theorem Ensures.any (p : Prog σ A E α) : Ensures (fun _ => True) p := by
  induction p with
  | done r => cases r <;> trivial
  | look q next ih => exact ih

/-- What the first part ensures of its value may be used for the second. -/
theorem Ensures.bind {p : Prog σ A E α} {f : α → Prog σ A E β} (first : Ensures P p) (rest : ∀ a, P a → Ensures Q (f a)) :
    Ensures Q (p >>= f) := by
  induction p with
  | done r =>
    cases r with
    | error e => trivial
    | ok a => exact rest a first
  | look q next ih => exact fun answer => ih answer (first answer)

theorem Ensures.zoom (part : τ → σ) {p : Prog σ A E α} (inside : Ensures P p) : Ensures P (p.zoom part) := by
  induction p with
  | done r => cases r <;> exact inside
  | look q next ih => exact fun answer => ih answer (inside answer)

theorem Ensures.mapError (f : E → F) {p : Prog σ A E α} (inside : Ensures P p) : Ensures P (p.mapError f) := by
  induction p with
  | done r => cases r <;> exact inside
  | look q next ih => exact fun answer => ih answer (inside answer)

theorem Ensures.run {p : Prog σ A E α} (ensures : Ensures P p) {i : Nat} {a : α} (ran : (Reads.run states i p).1 = .ok a) :
    P a := by
  induction p generalizing i with
  | done r =>
    cases ran
    exact ensures
  | look q next ih => exact ih (q (states i)) (ensures _) ran

end Ensures

/-- Something that is there until it is gone for good. -/
def Fading (d : D) (states : Nat → Option D) : Prop :=
  (∀ i, states i = some d ∨ states i = none) ∧ ∀ i j, i ≤ j → states i = none → states j = none

/-- However early its subject goes, the program ends as if it had stayed, or says that it is gone. -/
def Fades (gone : E → Prop) (d : D) (p : Prog (Option D) A E α) : Prop :=
  ∀ states, Fading d states → ∀ i, (run states i p).1 = eval (some d) p ∨ ∃ e, (run states i p).1 = .error e ∧ gone e

variable {gone : E → Prop}

theorem Fades.done (r : Except E α) : Fades gone d (.done r : Prog (Option D) A E α) :=
  fun _ _ _ => Or.inl rfl

theorem Fades.pure (a : α) : Fades gone d (Pure.pure a : Prog (Option D) A E α) := Fades.done _

theorem Fades.throw (e : E) : Fades gone d (Prog.throw e : Prog (Option D) A E α) := Fades.done _

/-- The first part says that its subject is gone, or it ends as if that had stayed; then the second goes on from
the value it would have had. -/
theorem Fades.bind {p : Prog (Option D) A E α} {f : α → Prog (Option D) A E β} (first : Fades gone d p)
    (rest : ∀ a, eval (some d) p = .ok a → Fades gone d (f a)) : Fades gone d (p >>= f) := by
  intro states fading i
  cases ran : run states i p with
  | mk result j =>
    rcases first states fading i with same | ⟨e, stopped, absent⟩
    · rw [ran] at same
      cases result with
      | error e =>
        rw [run_bind_error ran, eval_bind_error same.symm]
        exact Or.inl rfl
      | ok a =>
        rw [run_bind_ok ran, eval_bind_ok same.symm]
        exact rest a same.symm states fading j
    · rw [ran] at stopped
      change result = .error e at stopped
      subst stopped
      rw [run_bind_error ran]
      exact Or.inr ⟨e, rfl, absent⟩

/-- A look finds the subject, or it is gone for the rest of the program. -/
theorem Fades.look {q : Option D → A} {next : A → Prog (Option D) A E α} (there : Fades gone d (next (q (some d))))
    (absent : ∃ e, eval none (next (q none)) = .error e ∧ gone e) : Fades gone d (.look q next) := by
  intro states fading i
  rcases fading.1 i with found | lost
  · rw [run, eval, found]
    exact there states fading (i + 1)
  · obtain ⟨e, stopped, absent⟩ := absent
    have after : ∀ j, i + 1 ≤ j → states j = none := fun j later => fading.2 i j (Nat.le_of_succ_le later) lost
    refine Or.inr ⟨e, ?_, absent⟩
    rw [run, lost, run_still (next (q none)) after]
    exact stopped

/-- A program that fades is only disturbed by a state that is gone, and then the reader has met one. -/
theorem Fades.lost {p : Prog (Option D) A E α} {states : Nat → Option D} (fades : Fades gone d p)
    (fading : Fading d states) (i : Nat) : (run states i p).1 = eval (some d) p ∨
      (∃ e, (run states i p).1 = .error e ∧ gone e) ∧ ∃ j, j < (run states i p).2 ∧ states j = none := by
  by_cases seen : ∀ j, i ≤ j → j < (run states i p).2 → states j = some d
  · exact Or.inl (run_seen p seen)
  · rcases fades states fading i with same | absent
    · exact Or.inl same
    · refine Or.inr ⟨absent, ?_⟩
      simp only [Classical.not_forall] at seen
      obtain ⟨j, -, before, missing⟩ := seen
      exact ⟨j, before, (fading.1 j).resolve_left missing⟩

end Reads
