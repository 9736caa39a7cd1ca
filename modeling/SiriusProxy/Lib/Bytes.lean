import Mathlib.Data.List.Basic

namespace Bytes

/-- A test of every byte. -/
def all (p : UInt8 → Bool) : Bool := (List.range 256).all fun n => p (UInt8.ofNat n)

theorem all_spec {p : UInt8 → Bool} (holds : all p = true) (x : UInt8) : p x = true := by
  have range := List.all_eq_true.mp holds x.toNat (List.mem_range.mpr x.toNat_lt)
  rwa [UInt8.ofNat_toNat] at range

/-- A test of every byte and its entry in a table. -/
theorem all_table (table : List UInt8) (full : table.length = 256) {p : UInt8 → UInt8 → Bool}
    (holds : ((List.range 256).zip table).all (fun e => p (UInt8.ofNat e.1) e.2) = true) (x : UInt8) :
    p x (table.getD x.toNat 0) = true := by
  have bound : x.toNat < table.length := by rw [full]; exact x.toNat_lt
  have entry : (x.toNat, table.getD x.toNat 0) ∈ (List.range 256).zip table := by
    refine List.mem_iff_getElem?.mpr ⟨x.toNat, ?_⟩
    rw [List.getElem?_zip_eq_some]
    exact ⟨List.getElem?_range x.toNat_lt, by rw [List.getD_eq_getElem?_getD, List.getElem?_eq_getElem bound]; rfl⟩
  have checked := List.all_eq_true.mp holds _ entry
  rwa [UInt8.ofNat_toNat] at checked

/-- A function on bytes that is linear in their bits. -/
def Additive (f : UInt8 → UInt8) : Prop := ∀ x y, f (x ^^^ y) = f x ^^^ f y

/-- The bytes with one bit. -/
def basis : List UInt8 := [1, 2, 4, 8, 16, 32, 64, 128]

def bits (x : UInt8) : List UInt8 := basis.map (x &&& ·)

def sum (list : List UInt8) : UInt8 := list.foldr (· ^^^ ·) 0

theorem sum_cons (x : UInt8) (rest : List UInt8) : sum (x :: rest) = x ^^^ sum rest := rfl

theorem sum_bits (x : UInt8) : sum (bits x) = x := by
  have checked := all_spec (p := fun x => decide (sum (bits x) = x)) (by decide +kernel) x
  exact of_decide_eq_true checked

theorem mask_cases (x : UInt8) {m : UInt8} (single : m ∈ basis) : x &&& m = 0 ∨ x &&& m = m := by
  have checked := all_spec (p := fun x => basis.all fun m => x &&& m == 0 || x &&& m == m) (by decide +kernel) x
  have either := List.all_eq_true.mp checked m single
  rwa [Bool.or_eq_true, beq_iff_eq, beq_iff_eq] at either

theorem bits_basis (x : UInt8) : ∀ b ∈ bits x, b = 0 ∨ b ∈ basis := by
  intro b member
  obtain ⟨m, listed, rfl⟩ := List.mem_map.mp member
  rcases mask_cases x listed with none | same
  · exact Or.inl none
  · exact Or.inr (same.symm ▸ listed)

theorem and_xor (x y m : UInt8) : (x ^^^ y) &&& m = (x &&& m) ^^^ (y &&& m) := by
  apply UInt8.toBitVec_inj.mp
  ext i bound
  simp [Bool.and_xor_distrib_right]

namespace Additive
variable {f g : UInt8 → UInt8}

theorem zero (additive : Additive f) : f 0 = 0 := by
  have twice := additive 0 0
  rw [UInt8.xor_self, UInt8.xor_self] at twice
  exact twice

theorem sum (additive : Additive f) (list : List UInt8) : f (Bytes.sum list) = Bytes.sum (list.map f) := by
  induction list with
  | nil => exact additive.zero
  | cons x rest ih => rw [sum_cons, additive, ih, List.map_cons, sum_cons]

/-- Additive functions that agree on the bytes with one bit agree. -/
theorem ext (left : Additive f) (right : Additive g) (same : ∀ b ∈ basis, f b = g b) (x : UInt8) : f x = g x := by
  rw [← sum_bits x, left.sum, right.sum]
  have each : (bits x).map f = (bits x).map g := by
    refine List.map_congr_left fun b member => ?_
    rcases bits_basis x b member with rfl | single
    · rw [left.zero, right.zero]
    · exact same b single
  rw [each]

theorem xor (left : Additive f) (right : Additive g) : Additive fun x => f x ^^^ g x := by
  intro x y
  simp only [left x y, right x y]
  ac_rfl

theorem comp (outer : Additive f) (inner : Additive g) : Additive fun x => f (g x) := by
  intro x y
  simp only [inner x y, outer _ _]

theorem id : Additive fun x => x := fun _ _ => rfl

theorem nothing : Additive fun _ => 0 := fun _ _ => UInt8.xor_self.symm

/-- Biadditive functions that agree on the bytes with one bit agree. -/
theorem ext₂ {f g : UInt8 → UInt8 → UInt8} (fl : ∀ b, Additive fun a => f a b) (fr : ∀ a, Additive (f a))
    (gl : ∀ b, Additive fun a => g a b) (gr : ∀ a, Additive (g a)) (same : ∀ a ∈ basis, ∀ b ∈ basis, f a b = g a b)
    (a b : UInt8) : f a b = g a b := by
  refine (fl b).ext (gl b) (fun a single => ?_) a
  exact (fr a).ext (gr a) (fun b other => same a single b other) b

/-- A bit of the argument switches a fixed byte on. -/
theorem switch {m : UInt8} (single : m ∈ basis) (c : UInt8) : Additive fun x => if x &&& m ≠ 0 then c else 0 := by
  have some : m ≠ 0 := by
    intro zero
    subst zero
    revert single
    decide
  intro x y
  simp only [and_xor]
  rcases mask_cases x single with left | left <;> rcases mask_cases y single with right | right <;>
    simp [left, right, some]

end Additive

end Bytes
