import Mathlib.Logic.Relation

namespace Commands
open Relation
variable {σ C E α β : Type} {A : C → Type}

/-- A program of commands on a state that others may change between two of them. A command that
failed answers `none`. -/
inductive Prog (A : C → Type) (E α : Type) where
  | done (r : Except E α)
  | call (c : C) (next : Option (A c) → Prog A E α)

namespace Prog

protected def bind : Prog A E α → (α → Prog A E β) → Prog A E β
  | .done (.ok a), f => f a
  | .done (.error e), _ => .done (.error e)
  | .call c next, f => .call c fun answer => (next answer).bind f

instance : Monad (Prog A E) where
  pure a := .done (.ok a)
  bind := Prog.bind

def throw (e : E) : Prog A E α := .done (.error e)

def ofExcept (r : Except E α) : Prog A E α := .done r

/-- A command whose failure ends the program. -/
def ask (c : C) (e : E) : Prog A E (A c) := .call c fun answer => match answer with
  | some a => .done (.ok a)
  | none => .done (.error e)

/-- A command whose failure is an answer. -/
def attempt (c : C) : Prog A E (Option (A c)) := .call c fun answer => .done (.ok answer)

/-- No command beside the allowed ones, whatever is answered. -/
def Only (allowed : C → Prop) : Prog A E α → Prop
  | .done _ => True
  | .call c next => allowed c ∧ ∀ answer, Only allowed (next answer)

section Only
variable {allowed : C → Prop}

theorem Only.ask {c : C} (permitted : allowed c) (e : E) : Only allowed (Prog.ask (A := A) c e) := by
  refine ⟨permitted, fun answer => ?_⟩
  cases answer with
  | none => trivial
  | some a => trivial

theorem Only.attempt {c : C} (permitted : allowed c) : Only allowed (Prog.attempt (A := A) (E := E) c) :=
  ⟨permitted, fun _ => trivial⟩

end Only

/-- What every value of the program satisfies, whatever is answered. -/
def Yields (R : α → Prop) : Prog A E α → Prop
  | .done (.ok a) => R a
  | .done (.error _) => True
  | .call _ next => ∀ answer, Yields R (next answer)

section Yields
variable {R : α → Prop} {p : Prog A E α} {f : α → Prog A E β}

/-- What a sequence yields is what its second part yields on what the first may have yielded. -/
theorem Yields.bind {S : β → Prop} (first : Yields R p) (rest : ∀ a, R a → Yields S (f a)) : Yields S (p >>= f) := by
  induction p with
  | done r =>
    cases r with
    | ok a => exact rest a first
    | error e => trivial
  | call c next ih => exact fun answer => ih answer (first answer)

theorem Yields.trivial (p : Prog A E α) : Yields (fun _ => True) p := by
  induction p with
  | done r => cases r <;> trivial
  | call c next ih => exact fun answer => ih answer

/-- The second part need only be checked on the values that the first can yield. -/
theorem Only.bind_of {allowed : C → Prop} (first : Only allowed p) (yields : Yields R p)
    (rest : ∀ a, R a → Only allowed (f a)) : Only allowed (p >>= f) := by
  induction p with
  | done r =>
    cases r with
    | ok a => exact rest a yields
    | error e => trivial
  | call c next ih => exact ⟨first.1, fun answer => ih answer (first.2 answer) (yields answer)⟩

theorem Only.bind {allowed : C → Prop} (first : Only allowed p) (rest : ∀ a, Only allowed (f a)) :
    Only allowed (p >>= f) := first.bind_of (.trivial p) fun a _ => rest a

end Yields

/-- At most so many of the counted commands, whatever is answered. -/
def AtMost (counted : C → Bool) : Prog A E α → Nat → Prop
  | .done _, _ => True
  | .call c next, n =>
    (counted c = true → 0 < n) ∧ ∀ answer, AtMost counted (next answer) (if counted c then n - 1 else n)

section AtMost
variable {counted : C → Bool} {m n : Nat}

/-- A larger bound is met too. By induction on the program, with both bounds. -/
theorem AtMost.mono {p : Prog A E α} (few : AtMost counted p m) (le : m ≤ n) : AtMost counted p n := by
  induction p generalizing m n with
  | done r => trivial
  | call c next ih =>
    refine ⟨fun counts => Nat.lt_of_lt_of_le (few.1 counts) le, fun answer => ih answer (few.2 answer) ?_⟩
    split
    · exact Nat.sub_le_sub_right le 1
    · exact le

/-- The bounds of two parts add up, and the second part need only be counted on the values that the first
can yield. -/
theorem AtMost.bind_of {p : Prog A E α} {f : α → Prog A E β} {R : α → Prop} (first : AtMost counted p m)
    (yields : Yields R p) (rest : ∀ a, R a → AtMost counted (f a) n) : AtMost counted (p >>= f) (m + n) := by
  induction p generalizing m with
  | done r =>
    cases r with
    | ok a => exact (rest a yields).mono (Nat.le_add_left n m)
    | error e => trivial
  | call c next ih =>
    refine ⟨fun counts => Nat.add_pos_left (first.1 counts) n, fun answer =>
      (ih answer (first.2 answer) (yields answer)).mono ?_⟩
    split
    · rename_i counts
      have some_ := first.1 counts
      omega
    · exact Nat.le_refl _

theorem AtMost.bind {p : Prog A E α} {f : α → Prog A E β} (first : AtMost counted p m)
    (rest : ∀ a, AtMost counted (f a) n) : AtMost counted (p >>= f) (m + n) :=
  first.bind_of (.trivial p) fun a _ => rest a

/-- A first part that makes no counted command leaves them all to the rest. -/
theorem AtMost.quiet_of {p : Prog A E α} {f : α → Prog A E β} {R : α → Prop} (quiet : AtMost counted p 0)
    (yields : Yields R p) (rest : ∀ a, R a → AtMost counted (f a) n) : AtMost counted (p >>= f) n :=
  Nat.zero_add n ▸ quiet.bind_of yields rest

theorem AtMost.quiet {p : Prog A E α} {f : α → Prog A E β} (quiet : AtMost counted p 0)
    (rest : ∀ a, AtMost counted (f a) n) : AtMost counted (p >>= f) n :=
  quiet.quiet_of (.trivial p) fun a _ => rest a

theorem AtMost.ask {c : C} (few : counted c = true → 0 < n) (e : E) : AtMost counted (Prog.ask (A := A) c e) n := by
  refine ⟨few, fun answer => ?_⟩
  cases answer with
  | none => trivial
  | some a => trivial

theorem AtMost.attempt {c : C} (few : counted c = true → 0 < n) :
    AtMost counted (Prog.attempt (A := A) (E := E) c) n := ⟨few, fun _ => trivial⟩

end AtMost

end Prog

/-- How a run stands at its end: with the result, or stopped on the way. -/
inductive Outcome (E α : Type) where
  | ended (r : Except E α)
  | stopped

section Runs
variable (effect : σ → (c : C) → Option (A c) × σ) (env : σ → σ → Prop)

/-- The result when nobody else changes the state and no answer gets lost. -/
def eval : Prog A E α → σ → Except E α × σ
  | .done r, s => (r, s)
  | .call c next, s => eval (next (effect s c).1) (effect s c).2

/-- A run under interference. A command may also fail without its effect, or have its effect and the
answer is lost; and the run may stop before any command. -/
inductive Runs : Prog A E α → σ → Outcome E α → σ → Prop
  | done {r : Except E α} {s : σ} : Runs (.done r) s (.ended r) s
  | stop {p : Prog A E α} {s : σ} : Runs p s .stopped s
  | other {p : Prog A E α} {s t u : σ} {o : Outcome E α} : env s t → Runs p t o u → Runs p s o u
  | answered {c : C} {next : Option (A c) → Prog A E α} {s u : σ} {o : Outcome E α} :
      Runs (next (effect s c).1) (effect s c).2 o u → Runs (.call c next) s o u
  | lost {c : C} {next : Option (A c) → Prog A E α} {s u : σ} {o : Outcome E α} :
      Runs (next none) (effect s c).2 o u → Runs (.call c next) s o u
  | failed {c : C} {next : Option (A c) → Prog A E α} {s u : σ} {o : Outcome E α} :
      Runs (next none) s o u → Runs (.call c next) s o u

/-- From a state in it every run of the program changes the state only as in `keeps`, and ends in `Q`
of its result. -/
def wp (keeps : σ → σ → Prop) : Prog A E α → (Except E α → σ → Prop) → σ → Prop
  | .done r, Q, s => ∀ t, ReflTransGen env s t → Q r t
  | .call c next, Q, s => ∀ t, ReflTransGen env s t → keeps t (effect t c).2 ∧
      wp keeps (next (effect t c).1) Q (effect t c).2 ∧ wp keeps (next none) Q (effect t c).2 ∧
        wp keeps (next none) Q t

end Runs

variable {effect : σ → (c : C) → Option (A c) × σ} {env keeps : σ → σ → Prop} {s t u : σ}
  {Q R : Except E α → σ → Prop} {p : Prog A E α}

theorem eval_bind (p : Prog A E α) (f : α → Prog A E β) (s : σ) : eval effect (p >>= f) s =
    match eval effect p s with
    | (.ok a, t) => eval effect (f a) t
    | (.error e, t) => (.error e, t) := by
  induction p generalizing s with
  | done r => cases r <;> rfl
  | call c next ih => exact ih _ _

theorem eval_bind_ok {f : α → Prog A E β} {a : α} (first : eval effect p s = (.ok a, t)) :
    eval effect (p >>= f) s = eval effect (f a) t := by
  rw [eval_bind, first]

theorem eval_bind_error {f : α → Prog A E β} {e : E} (first : eval effect p s = (.error e, t)) :
    eval effect (p >>= f) s = (.error e, t) := by
  rw [eval_bind, first]

theorem eval_ask {c : C} {a : A c} (e : E) (answer : effect s c = (some a, t)) :
    eval effect (Prog.ask c e) s = (.ok a, t) := by
  rw [Prog.ask, eval, answer]
  rfl

theorem eval_ask_none {c : C} (e : E) (answer : effect s c = (none, t)) :
    eval effect (Prog.ask c e) s = (.error e, t) := by
  rw [Prog.ask, eval, answer]
  rfl

section Undisturbed
variable (effect env)

theorem Runs.eval (p : Prog A E α) (s : σ) :
    Runs effect env p s (.ended (eval effect p s).1) (eval effect p s).2 := by
  induction p generalizing s with
  | done r => exact .done
  | call c next ih => exact .answered (ih _ _)

end Undisturbed

theorem wp_later (pre : wp effect env keeps p Q s) (later : ReflTransGen env s t) :
    wp effect env keeps p Q t := by
  cases p with
  | done r => exact fun u more => pre u (later.trans more)
  | call c next => exact fun u more => pre u (later.trans more)

/-- A weaker postcondition is reached as well. By induction on the program. -/
theorem wp_mono (pre : wp effect env keeps p Q s) (weaker : ∀ r t, Q r t → R r t) :
    wp effect env keeps p R s := by
  induction p generalizing s with
  | done r => exact fun t later => weaker r t (pre t later)
  | call c next ih =>
    intro t later
    obtain ⟨kept, answered, lost, failed⟩ := pre t later
    exact ⟨kept, ih _ answered, ih _ lost, ih _ failed⟩

/-- So is one that permits more to the commands. -/
theorem wp_keeps {wider : σ → σ → Prop} (pre : wp effect env keeps p Q s) (within : ∀ s t, keeps s t → wider s t) :
    wp effect env wider p Q s := by
  induction p generalizing s with
  | done r => exact pre
  | call c next ih =>
    intro t later
    obtain ⟨kept, answered, lost, failed⟩ := pre t later
    exact ⟨within _ _ kept, ih _ answered, ih _ lost, ih _ failed⟩

/-- The rule of sequence. -/
theorem wp_bind {f : α → Prog A E β} {Q : Except E β → σ → Prop}
    (pre : wp effect env keeps p (fun r t => match r with
      | .ok a => wp effect env keeps (f a) Q t
      | .error e => Q (.error e) t) s) : wp effect env keeps (p >>= f) Q s := by
  induction p generalizing s with
  | done r =>
    cases r with
    | ok a => exact pre s .refl
    | error e => exact pre
  | call c next ih =>
    intro t later
    obtain ⟨kept, answered, lost, failed⟩ := pre t later
    exact ⟨kept, ih _ answered, ih _ lost, ih _ failed⟩

section Command
variable {c : C} (kept : ∀ t, ReflTransGen env s t → keeps t (effect t c).2)
include kept

/-- A command whose failure ends the program: behind an answer, behind one that is lost, and where
nothing has happened. -/
theorem wp_ask {e : E} {Q : Except E (A c) → σ → Prop}
    (answered : ∀ t a u, ReflTransGen env s t → (effect t c).1 = some a → ReflTransGen env (effect t c).2 u →
      Q (.ok a) u)
    (lost : ∀ t u, ReflTransGen env s t → ReflTransGen env (effect t c).2 u → Q (.error e) u)
    (failed : ∀ t, ReflTransGen env s t → Q (.error e) t) : wp effect env keeps (Prog.ask c e) Q s := by
  intro t later
  refine ⟨kept t later, ?_, fun u more => lost t u later more, fun u more => failed u (later.trans more)⟩
  cases answer : (effect t c).1 with
  | none => exact fun u more => lost t u later more
  | some a => exact fun u more => answered t a u later answer more

/-- The three ways in which a command can end: with its effect and its answer, with its effect alone, and
with neither. -/
theorem wp_attempt {Q : Except E (Option (A c)) → σ → Prop}
    (answered : ∀ t a u, ReflTransGen env s t → (effect t c).1 = some a → ReflTransGen env (effect t c).2 u →
      Q (.ok (some a)) u)
    (lost : ∀ t u, ReflTransGen env s t → ReflTransGen env (effect t c).2 u → Q (.ok none) u)
    (failed : ∀ t, ReflTransGen env s t → Q (.ok none) t) : wp effect env keeps (Prog.attempt c) Q s := by
  intro t later
  refine ⟨kept t later, ?_, fun u more => lost t u later more, fun u more => failed u (later.trans more)⟩
  cases answer : (effect t c).1 with
  | none => exact fun u more => lost t u later more
  | some a => exact fun u more => answered t a u later answer more

end Command

/-- What others and every command keep holds wherever a run ends or stops. -/
theorem Runs.invariant {P : σ → Prop} {o : Outcome E α} (run : Runs effect env p s o u) (begun : P s)
    (others : ∀ s t, env s t → P s → P t) (own : ∀ s c, P s → P (effect s c).2) : P u := by
  induction run with
  | done => exact begun
  | stop => exact begun
  | other moved _ ih => exact ih (others _ _ moved begun)
  | answered _ ih => exact ih (own _ _ begun)
  | lost _ ih => exact ih (own _ _ begun)
  | failed _ ih => exact ih begun

/-- What others and the commands of the program keep. -/
theorem Runs.only {P : σ → Prop} {allowed : C → Prop} {o : Outcome E α} (run : Runs effect env p s o u)
    (only : Prog.Only allowed p) (begun : P s) (others : ∀ s t, env s t → P s → P t)
    (own : ∀ s c, allowed c → P s → P (effect s c).2) : P u := by
  induction run with
  | done => exact begun
  | stop => exact begun
  | other moved _ ih => exact ih only (others _ _ moved begun)
  | answered _ ih => exact ih (only.2 _) (own _ _ only.1 begun)
  | lost _ ih => exact ih (only.2 _) (own _ _ only.1 begun)
  | failed _ ih => exact ih (only.2 _) begun

/-- How often counted commands have had their effect. -/
theorem Runs.atMost {counted : C → Bool} {n : Nat} {o : Outcome E α} (run : Runs effect env p s o u) (measure : σ → Nat)
    (few : Prog.AtMost counted p n) (others : ∀ s t, env s t → measure t = measure s)
    (own : ∀ s c, measure (effect s c).2 ≤ measure s + if counted c then 1 else 0) : measure u ≤ measure s + n := by
  have spent {c : C} {s u : σ} {m : Nat} (some_ : counted c = true → 0 < m)
      (rest : measure u ≤ measure (effect s c).2 + if counted c then m - 1 else m) : measure u ≤ measure s + m := by
    have first := own s c
    split at rest
    · rename_i counts
      have positive := some_ counts
      rw [if_pos counts] at first
      omega
    · rename_i other
      rw [if_neg other] at first
      omega
  induction run generalizing n with
  | done => exact Nat.le_add_right _ _
  | stop => exact Nat.le_add_right _ _
  | other moved _ ih => exact others _ _ moved ▸ ih few
  | answered _ ih => exact spent few.1 (ih (few.2 _))
  | lost _ ih => exact spent few.1 (ih (few.2 _))
  | failed _ ih =>
    refine Nat.le_trans (ih (few.2 _)) (Nat.add_le_add_left ?_ _)
    split
    · exact Nat.sub_le n 1
    · exact Nat.le_refl n

/-- What the weakest precondition says of a run, ended or stopped. -/
theorem Runs.sound {o : Outcome E α} (run : Runs effect env p s o u) (pre : wp effect env keeps p Q s) :
    ReflTransGen (fun a b => env a b ∨ keeps a b) s u ∧ ∀ r, o = .ended r → Q r u := by
  induction run with
  | done =>
    refine ⟨.refl, fun r same => ?_⟩
    cases same
    exact pre _ .refl
  | stop =>
    refine ⟨.refl, fun r same => ?_⟩
    cases same
  | other moved _ ih =>
    obtain ⟨path, post⟩ := ih (wp_later pre (.single moved))
    exact ⟨.head (Or.inl moved) path, post⟩
  | answered _ ih =>
    obtain ⟨kept, answered, -, -⟩ := pre _ .refl
    obtain ⟨path, post⟩ := ih answered
    exact ⟨.head (Or.inr kept) path, post⟩
  | lost _ ih =>
    obtain ⟨kept, -, lost, -⟩ := pre _ .refl
    obtain ⟨path, post⟩ := ih lost
    exact ⟨.head (Or.inr kept) path, post⟩
  | failed _ ih =>
    obtain ⟨-, -, -, failed⟩ := pre _ .refl
    exact ih failed

end Commands
