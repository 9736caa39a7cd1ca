namespace Effect
universe u
variable {σ ε α β : Type u}

/-- A program over a state that may stop early. The changes made before it stops stay. -/
def Prog (σ ε α : Type u) : Type u := σ → Except ε α × σ

namespace Prog

protected def pure (a : α) : Prog σ ε α := fun s => (.ok a, s)

protected def bind (m : Prog σ ε α) (f : α → Prog σ ε β) : Prog σ ε β := fun s =>
  match m s with
  | (.ok a, t) => f a t
  | (.error e, t) => (.error e, t)

instance : Monad (Prog σ ε) where
  pure := Prog.pure
  bind := Prog.bind

def throw (e : ε) : Prog σ ε α := fun s => (.error e, s)

/-- Continues with a value already decided, or stops with its error. -/
def ofExcept : Except ε α → Prog σ ε α
  | .ok a => Prog.pure a
  | .error e => throw e

def get : Prog σ ε σ := fun s => (.ok s, s)

def modify (f : σ → σ) : Prog σ ε PUnit := fun s => (.ok ⟨⟩, f s)

/-- Runs to its end or its stop, and goes on with either. -/
def attempt (m : Prog σ ε α) : Prog σ ε (Except ε α) := fun s =>
  match m s with
  | (r, t) => (.ok r, t)

/-- Runs on a part of a larger state. -/
def zoom {τ : Type u} (part : τ → σ) (put : τ → σ → τ) (m : Prog σ ε α) : Prog τ ε α := fun t =>
  match m (part t) with
  | (r, s) => (r, put t s)

/-- Runs to its end or its stop, and then changes the state: a guard that is dropped. -/
def closing (f : σ → σ) (m : Prog σ ε α) : Prog σ ε α := fun s =>
  match m s with
  | (r, t) => (r, f t)

/-- Visits a list in order; the first stop ends the visit. -/
def each (f : α → Prog σ ε PUnit) : List α → Prog σ ε PUnit
  | [] => Prog.pure ⟨⟩
  | a :: rest => Prog.bind (f a) fun _ => each f rest

theorem bind_ok {m : Prog σ ε α} {f : α → Prog σ ε β} {s t : σ} {a : α} (run : m s = (.ok a, t)) :
    (m >>= f) s = f a t := by
  change Prog.bind m f s = _
  rw [Prog.bind, run]

end Prog

/-- Stops unless a condition holds. -/
def require (holds : Bool) (e : ε) : Prog σ ε PUnit := if holds then Prog.pure ⟨⟩ else Prog.throw e

theorem require_bind {holds : Bool} (e : ε) (f : PUnit → Prog σ ε α) (s : σ) (held : holds = true) :
    (require holds e >>= f) s = f ⟨⟩ s := by
  subst held
  rfl

/-- Runs a part only under a condition. -/
def onlyIf (holds : Bool) (m : Prog σ ε PUnit) : Prog σ ε PUnit := if holds then m else Prog.pure ⟨⟩

/-- From every state in `P` the program ends in `Q` of its value, or stops in `E` of its error. -/
def Triple (P : σ → Prop) (m : Prog σ ε α) (Q : α → σ → Prop) (E : ε → σ → Prop) : Prop :=
  ∀ s, P s → (∀ a t, m s = (.ok a, t) → Q a t) ∧ (∀ e t, m s = (.error e, t) → E e t)

namespace Triple
variable {P P' : σ → Prop} {Q Q' : α → σ → Prop} {E E' : ε → σ → Prop} {R : β → σ → Prop}
  {m : Prog σ ε α}

theorem pure {a : α} (post : ∀ s, P s → Q a s) : Triple P (Pure.pure a) Q E := by
  intro s pre
  refine ⟨?_, ?_⟩
  · rintro b t result
    cases result
    exact post s pre
  · rintro e t result
    cases result

theorem throw {e : ε} (post : ∀ s, P s → E e s) : Triple P (Prog.throw (α := α) e) Q E := by
  intro s pre
  refine ⟨?_, ?_⟩
  · rintro b t result
    cases result
  · rintro e t result
    cases result
    exact post s pre

theorem ofExcept {r : Except ε α} (ok : ∀ a, r = .ok a → ∀ s, P s → Q a s)
    (error : ∀ e, r = .error e → ∀ s, P s → E e s) : Triple P (Prog.ofExcept r) Q E := by
  cases r with
  | ok a => exact Triple.pure (ok a rfl)
  | error e => exact Triple.throw (error e rfl)

theorem get {Q : σ → σ → Prop} (post : ∀ s, P s → Q s s) : Triple P (Prog.get (ε := ε)) Q E := by
  intro s pre
  refine ⟨?_, ?_⟩
  · rintro b t result
    cases result
    exact post s pre
  · rintro e t result
    cases result

theorem modify {f : σ → σ} {Q : PUnit → σ → Prop} (post : ∀ s, P s → Q ⟨⟩ (f s)) :
    Triple P (Prog.modify f) Q E := by
  intro s pre
  refine ⟨?_, ?_⟩
  · rintro b t result
    cases result
    exact post s pre
  · rintro e t result
    cases result

theorem attempt {R : Except ε α → σ → Prop} (triple : Triple P m Q E) (ok : ∀ a s, Q a s → R (.ok a) s)
    (error : ∀ e s, E e s → R (.error e) s) : Triple P (Prog.attempt m) R E' := by
  intro s pre
  obtain ⟨done, stopped⟩ := triple s pre
  have runs : Prog.attempt m s = (.ok (m s).1, (m s).2) := rfl
  cases run : m s with
  | mk r t =>
    rw [run] at runs
    rw [runs]
    refine ⟨?_, ?_⟩
    · rintro b u result
      cases result
      cases r with
      | ok a => exact ok a t (done a t run)
      | error e => exact error e t (stopped e t run)
    · rintro e u result
      cases result

theorem closing {f : σ → σ} (triple : Triple P m Q E) (ok : ∀ a s, Q a s → Q' a (f s))
    (error : ∀ e s, E e s → E' e (f s)) : Triple P (Prog.closing f m) Q' E' := by
  intro s pre
  obtain ⟨done, stopped⟩ := triple s pre
  have runs : Prog.closing f m s = ((m s).1, f (m s).2) := rfl
  refine ⟨?_, ?_⟩
  · rintro a t result
    obtain ⟨value, rfl⟩ := Prod.mk.inj (runs.symm.trans result)
    exact ok a _ (done a _ (Prod.ext value rfl))
  · rintro e t result
    obtain ⟨value, rfl⟩ := Prod.mk.inj (runs.symm.trans result)
    exact error e _ (stopped e _ (Prod.ext value rfl))

theorem bind {f : α → Prog σ ε β} (first : Triple P m Q E) (second : ∀ a, Triple (Q a) (f a) R E) :
    Triple P (m >>= f) R E := by
  intro s pre
  obtain ⟨done, stopped⟩ := first s pre
  cases run : m s with
  | mk r t =>
    have unfolded : (m >>= f) s = match (r, t) with
        | (.ok a, t) => f a t
        | (.error e, t) => (.error e, t) := by
      change Prog.bind m f s = _
      unfold Prog.bind
      rw [run]
    cases r with
    | ok a =>
      rw [unfolded]
      exact second a t (done a t run)
    | error e =>
      rw [unfolded]
      refine ⟨?_, ?_⟩
      · rintro b u result
        cases result
      · rintro e' u result
        cases result
        exact stopped e t run

theorem conseq (triple : Triple P m Q E) (pre : ∀ s, P' s → P s) (post : ∀ a s, Q a s → Q' a s)
    (stop : ∀ e s, E e s → E' e s) : Triple P' m Q' E' := by
  intro s holds
  obtain ⟨done, stopped⟩ := triple s (pre s holds)
  exact ⟨fun a t result => post a t (done a t result), fun e t result => stop e t (stopped e t result)⟩

theorem weaken (triple : Triple P m Q E) (post : ∀ a s, Q a s → Q' a s)
    (stop : ∀ e s, E e s → E' e s) : Triple P m Q' E' :=
  triple.conseq (fun _ => id) post stop

theorem pre (triple : Triple P m Q E) (stronger : ∀ s, P' s → P s) : Triple P' m Q E :=
  triple.conseq stronger (fun _ _ => id) (fun _ _ => id)

/-- Two specifications of one program hold together. -/
theorem both (left : Triple P m Q E) (right : Triple P' m Q' E') :
    Triple (fun s => P s ∧ P' s) m (fun a s => Q a s ∧ Q' a s) (fun e s => E e s ∧ E' e s) := by
  rintro s ⟨first, second⟩
  refine ⟨?_, ?_⟩
  · exact fun a t result => ⟨(left s first).1 a t result, (right s second).1 a t result⟩
  · exact fun e t result => ⟨(left s first).2 e t result, (right s second).2 e t result⟩

theorem zoom {τ : Type u} {part : τ → σ} {put : τ → σ → τ} (lawful : ∀ t s, part (put t s) = s)
    (triple : Triple P m Q E) :
    Triple (fun t => P (part t)) (Prog.zoom part put m) (fun a t => Q a (part t))
      (fun e t => E e (part t)) := by
  intro t pre
  obtain ⟨done, stopped⟩ := triple (part t) pre
  have runs : Prog.zoom part put m t = ((m (part t)).1, put t (m (part t)).2) := rfl
  refine ⟨?_, ?_⟩
  · rintro a u result
    obtain ⟨value, rfl⟩ := Prod.mk.inj (runs.symm.trans result)
    rw [lawful]
    exact done a _ (Prod.ext value rfl)
  · rintro e u result
    obtain ⟨value, rfl⟩ := Prod.mk.inj (runs.symm.trans result)
    rw [lawful]
    exact stopped e _ (Prod.ext value rfl)

/-- A precondition that does not depend on the state. -/
theorem assume {A : Prop} (triple : A → Triple P m Q E) : Triple (fun s => A ∧ P s) m Q E :=
  fun s ⟨holds, pre⟩ => triple holds s pre

/-- The loop rule: an invariant kept by every visited element, whatever is left to visit. -/
theorem each {f : α → Prog σ ε PUnit} {I : List α → σ → Prop} {items : List α}
    (body : ∀ a rest, Triple (I (a :: rest)) (f a) (fun _ => I rest) E) :
    Triple (I items) (Prog.each f items) (fun _ => I []) E := by
  induction items with
  | nil => exact Triple.pure fun _ => id
  | cons a rest ih => exact Triple.bind (body a rest) fun _ => ih

end Triple

end Effect
