import SiriusProxy.Lib.Commands

namespace Commands
variable {σ C E α : Type} {A : C → Type}

namespace Prog

/-- The program with its error as an answer. -/
def caught : Prog A E α → Prog A E (Except E α)
  | .done r => .done (.ok r)
  | .call c next => .call c fun answer => (next answer).caught

/-- At most so many attempts, the first with number `k`; after an error that is tried again comes a pause. -/
def retry (last : E) (again : E → Nat → Bool) (pause : Nat → Prog A E Unit) (body : Prog A E α) :
    Nat → Nat → Prog A E α
  | 0, _ => throw last
  | n + 1, k => do
    let result ← body.caught
    match result with
    | .ok a => pure a
    | .error e =>
      if again e k then do
        pause k
        retry last again pause body n (k + 1)
      else throw e

variable {allowed : C → Prop} {last : E} {again : E → Nat → Bool} {pause : Nat → Prog A E Unit} {p body : Prog A E α}

theorem Only.caught (only : Only allowed p) : Only allowed p.caught := by
  induction p with
  | done r => trivial
  | call c next ih => exact ⟨only.1, fun answer => ih answer (only.2 answer)⟩

theorem Only.retry (tried : Only allowed body) (paused : ∀ k, Only allowed (pause k)) (n k : Nat) :
    Only allowed (retry last again pause body n k) := by
  induction n generalizing k with
  | zero => trivial
  | succ n ih =>
    refine tried.caught.bind fun result => ?_
    cases result with
    | ok a => trivial
    | error e =>
      dsimp only
      split
      · exact (paused k).bind fun _ => ih (k + 1)
      · trivial

section AtMost
variable {counted : C → Bool} {m : Nat}

theorem AtMost.caught (few : AtMost counted p m) : AtMost counted p.caught m := by
  induction p generalizing m with
  | done r => trivial
  | call c next ih => exact ⟨few.1, fun answer => ih answer (few.2 answer)⟩

theorem AtMost.retry (tried : AtMost counted body m) (paused : ∀ k, AtMost counted (pause k) 0) (n k : Nat) :
    AtMost counted (retry last again pause body n k) (n * m) := by
  induction n generalizing k with
  | zero => trivial
  | succ n ih =>
    rw [Nat.succ_mul, Nat.add_comm (n * m) m]
    refine tried.caught.bind fun result => ?_
    cases result with
    | ok a => trivial
    | error e =>
      dsimp only
      split
      · exact (paused k).quiet fun _ => ih (k + 1)
      · trivial

end AtMost

end Prog

variable {effect : σ → (c : C) → Option (A c) × σ} {env keeps : σ → σ → Prop} {s t : σ} {last : E}
  {again : E → Nat → Bool} {pause : Nat → Prog A E Unit} {p body : Prog A E α}

theorem eval_caught (p : Prog A E α) (s : σ) :
    eval effect p.caught s = (.ok (eval effect p s).1, (eval effect p s).2) := by
  induction p generalizing s with
  | done r => rfl
  | call c next ih => exact ih _ _

theorem wp_caught {Q : Except E (Except E α) → σ → Prop}
    (pre : wp effect env keeps p (fun r t => Q (.ok r) t) s) : wp effect env keeps p.caught Q s := by
  induction p generalizing s with
  | done r => exact pre
  | call c next ih =>
    intro t later
    obtain ⟨kept, answered, lost, failed⟩ := pre t later
    exact ⟨kept, ih _ answered, ih _ lost, ih _ failed⟩

/-- The rule of repetition, with what holds before every attempt. -/
theorem wp_retry {P : σ → Prop} {Q : Except E α → σ → Prop}
    (tried : ∀ s, P s → wp effect env keeps body (fun r t => match r with
      | .ok a => ∀ u, Relation.ReflTransGen env t u → Q (.ok a) u
      | .error _ => P t) s)
    (paused : ∀ k s, P s → wp effect env keeps (pause k) (fun _ => P) s)
    (failed : ∀ e s t, P s → Relation.ReflTransGen env s t → Q (.error e) t) (n k : Nat) (begun : P s) :
    wp effect env keeps (Prog.retry last again pause body n k) Q s := by
  induction n generalizing k s with
  | zero => exact fun t later => failed last s t begun later
  | succ n ih =>
    refine wp_bind (wp_caught (wp_mono (tried s begun) fun r t post => ?_))
    cases r with
    | ok a => exact post
    | error e =>
      dsimp only
      split
      · refine wp_bind (wp_mono (paused k t post) fun r u rested => ?_)
        cases r with
        | ok _ => exact ih (k + 1) rested
        | error e => exact failed e u u rested .refl
      · exact fun u later => failed e t u post later

/-- Fewer failures than attempts leave no trace in the result. -/
theorem eval_retry (states mids : Nat → σ) (errors : Nat → E) {m n k : Nat} {a : α} (few : m < n)
    (fails : ∀ i < m, eval effect body (states i) = (.error (errors i), mids i) ∧ again (errors i) (k + i) = true ∧
      eval effect (pause (k + i)) (mids i) = (.ok (), states (i + 1)))
    (ends : eval effect body (states m) = (.ok a, t)) :
    eval effect (Prog.retry last again pause body n k) (states 0) = (.ok a, t) := by
  induction m generalizing n k states mids errors with
  | zero =>
    obtain ⟨n, rfl⟩ := Nat.exists_eq_succ_of_ne_zero (Nat.ne_of_gt few)
    have first : eval effect body.caught (states 0) = (.ok (.ok a), t) := by rw [eval_caught, ends]
    rw [Prog.retry, eval_bind_ok first]
    rfl
  | succ m ih =>
    obtain ⟨n, rfl⟩ := Nat.exists_eq_succ_of_ne_zero (Nat.ne_of_gt (Nat.zero_lt_of_lt few))
    obtain ⟨failed, retried, rested⟩ := fails 0 (Nat.zero_lt_succ m)
    have first : eval effect body.caught (states 0) = (.ok (.error (errors 0)), mids 0) := by rw [eval_caught, failed]
    rw [Nat.add_zero] at retried rested
    rw [Prog.retry, eval_bind_ok first]
    simp only [retried, if_true]
    rw [eval_bind_ok rested]
    refine ih (fun i => states (i + 1)) (fun i => mids (i + 1)) (fun i => errors (i + 1))
      (Nat.lt_of_succ_lt_succ few) (fun i small => ?_) ends
    have later := fails (i + 1) (Nat.succ_lt_succ small)
    rwa [Nat.add_comm i 1, ← Nat.add_assoc, Nat.add_comm 1 i] at later

end Commands
