import Mathlib.Data.List.Perm.Basic
import Mathlib.Data.Bool.Basic

namespace Permits
variable {probing : Bool} {live : List Bool} {i : Nat}

/-- A flag that stands for the one probe among the live permits, each listed with whether it is a probe. -/
def Counted (probing : Bool) (live : List Bool) : Prop := live.count true = probing.toNat

theorem Counted.none : Counted false [] := rfl

theorem Counted.ordinary (counted : Counted probing live) : Counted probing (false :: live) := by
  unfold Counted at counted ⊢
  rw [List.count_cons_of_ne Bool.false_ne_true]
  exact counted

theorem Counted.probe (counted : Counted false live) : Counted true (true :: live) := by
  unfold Counted at counted ⊢
  rw [List.count_cons_self, counted]
  rfl

/-- Dropping a probe clears the flag; dropping an ordinary permit leaves it. -/
theorem Counted.drop {p : Bool} (counted : Counted probing live) (found : live[i]? = some p) :
    Counted (if p then false else probing) (live.eraseIdx i) := by
  unfold Counted at counted ⊢
  obtain ⟨inside, same⟩ := List.getElem?_eq_some_iff.mp found
  have split := (List.getElem_cons_eraseIdx_perm inside).count_eq true
  rw [same, List.count_cons, counted] at split
  have one : probing.toNat ≤ 1 := Bool.toNat_le probing
  cases p with
  | false => simpa using split
  | true =>
    simp only [if_true, Bool.toNat_false, beq_self_eq_true] at split ⊢
    omega

/-- There is at most one probe, and the flag is set exactly while there is one. -/
theorem Counted.unique (counted : Counted probing live) :
    live.count true ≤ 1 ∧ (probing = true ↔ live.count true = 1) := by
  unfold Counted at counted
  cases probing with
  | false =>
    rw [counted]
    decide
  | true =>
    rw [counted]
    decide

end Permits
