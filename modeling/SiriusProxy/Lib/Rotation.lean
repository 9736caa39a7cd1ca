import Mathlib.Algebra.GroupWithZero.Nat
import Mathlib.Data.List.Basic
import Mathlib.Order.Lattice
import Mathlib.Tactic.SplitIfs

namespace Rotation
universe u
variable {K : Type u} [LinearOrder K] {cursor : Option K} {a b c last : K} {xs : List K} {n : Nat}

/-- A rotation that continues after the cursor comes to this key only after it has wrapped around. -/
def Wrapped (cursor : Option K) (a : K) : Prop := ∃ c ∈ cursor, a ≤ c

/-- A rotation from the cursor comes to `a` before it comes to `b`. -/
def Ahead (cursor : Option K) (a b : K) : Prop :=
  (¬ Wrapped cursor a ∧ Wrapped cursor b) ∨ ((Wrapped cursor a ↔ Wrapped cursor b) ∧ a < b)

@[simp] theorem not_wrapped_none : ¬ Wrapped none a := by
  rintro ⟨c, ⟨⟩, -⟩

@[simp] theorem wrapped_some : Wrapped (some c) a ↔ a ≤ c := by
  constructor
  · rintro ⟨_, ⟨⟩, below⟩
    exact below
  · exact fun below => ⟨c, rfl, below⟩

theorem ahead_none : Ahead none a b ↔ a < b := by
  simp only [Ahead, not_wrapped_none, not_false_eq_true, and_false, iff_self, true_and, false_or]

theorem Ahead.ne (ahead : Ahead cursor a b) : a ≠ b := by
  rintro rfl
  rcases ahead with ⟨early, late⟩ | ⟨-, below⟩
  · exact early late
  · exact lt_irrefl a below

theorem Ahead.trans (first : Ahead cursor a b) (second : Ahead cursor b c) : Ahead cursor a c := by
  unfold Ahead at *
  rcases first with ⟨early, late⟩ | ⟨same, below⟩
  · rcases second with ⟨other, -⟩ | ⟨same, -⟩
    · exact absurd late other
    · exact Or.inl ⟨early, same.mp late⟩
  · rcases second with ⟨early, late⟩ | ⟨other, above⟩
    · exact Or.inl ⟨fun wrapped => early (same.mp wrapped), late⟩
    · exact Or.inr ⟨same.trans other, below.trans above⟩

theorem Ahead.asymm (ahead : Ahead cursor a b) : ¬ Ahead cursor b a := fun other => (ahead.trans other).ne rfl

/-- With `b` at or before the new cursor, what came before `b` comes before it again. -/
theorem Ahead.kept (ahead : Ahead cursor a b) (reached : b = last ∨ Ahead cursor b last) : Ahead (some last) a b := by
  cases cursor with
  | none =>
    simp only [Ahead, wrapped_some, not_wrapped_none, iff_self, not_false_eq_true, and_false, false_or, true_and] at *
    have bound : b ≤ last := by
      rcases reached with rfl | below
      · exact le_refl b
      · exact le_of_lt below
    exact Or.inr ⟨iff_of_true (ahead.le.trans bound) bound, ahead⟩
  | some c =>
    simp only [Ahead, wrapped_some, not_le] at *
    rcases reached with rfl | reached
    · rcases lt_or_ge b a with above | below
      · exact Or.inl ⟨above, le_refl b⟩
      · rcases ahead with ⟨early, late⟩ | ⟨-, smaller⟩
        · exact absurd (late.trans_lt early) (not_lt.mpr below)
        · exact Or.inr ⟨iff_of_true below (le_refl b), smaller⟩
    · grind

/-- A rotation that stops before `a` still comes to it before `b`. -/
theorem Ahead.behind (stops : Ahead cursor last a) (ahead : Ahead cursor a b) : Ahead (some last) a b := by
  cases cursor with
  | none =>
    rw [ahead_none] at *
    simp only [Ahead, wrapped_some, not_le]
    exact Or.inr ⟨iff_of_false (not_le.mpr stops) (not_le.mpr (stops.trans ahead)), ahead⟩
  | some c =>
    simp only [Ahead, wrapped_some, not_le] at *
    grind

/-- A rotation that has passed `b` but not come to `a` comes to `a` first from then on. -/
theorem Ahead.passed (reached : b = last ∨ Ahead cursor b last) (stops : Ahead cursor last a) :
    Ahead (some last) a b := by
  cases cursor with
  | none =>
    rw [ahead_none] at *
    simp only [Ahead, wrapped_some, not_le]
    refine Or.inl ⟨stops, ?_⟩
    rcases reached with rfl | below
    · exact le_refl b
    · exact le_of_lt below
  | some c =>
    simp only [Ahead, wrapped_some, not_le] at *
    grind

/-- Starting over changes the order of two keys only when the cursor has reached the later one and
not yet the earlier: then the earlier is the greater of the two. -/
theorem Ahead.restart (ahead : Ahead cursor a b) (free : ∀ c ∈ cursor, b ≤ c → ¬ c < a) : Ahead none a b := by
  rw [ahead_none]
  rcases ahead with ⟨early, c, named, reached⟩ | ⟨-, below⟩
  · have above : c < a := lt_of_not_ge fun below => early ⟨c, named, below⟩
    exact absurd above (free c named reached)
  · exact below

/-- Of keys in rotation order, the first `n` hold whatever comes before one of them. -/
theorem mem_take_of_ahead (ordered : xs.Pairwise (Ahead cursor)) (chosen : b ∈ xs.take n) (member : a ∈ xs)
    (ahead : Ahead cursor a b) : a ∈ xs.take n := by
  rw [← List.take_append_drop n xs] at ordered member
  rcases List.mem_append.mp member with early | late
  · exact early
  · exact absurd ahead ((List.pairwise_append.mp ordered).2.2 b chosen a late).asymm

/-- What the first `n` leave out comes after the last of them. -/
theorem ahead_of_notMem_take (ordered : xs.Pairwise (Ahead cursor)) (chosen : b ∈ xs.take n) (member : a ∈ xs)
    (left : a ∉ xs.take n) : Ahead cursor b a := by
  rw [← List.take_append_drop n xs] at ordered member
  rcases List.mem_append.mp member with early | late
  · exact absurd early left
  · exact (List.pairwise_append.mp ordered).2.2 b chosen a late

/-- Every chosen key is the last one or comes before it. -/
theorem reaches_last (ordered : xs.Pairwise (Ahead cursor)) (ends : xs.getLast? = some last) (member : a ∈ xs) :
    a = last ∨ Ahead cursor a last := by
  obtain ⟨early, rfl⟩ := List.getLast?_eq_some_iff.mp ends
  rcases List.mem_append.mp member with before | final
  · exact Or.inr ((List.pairwise_append.mp ordered).2.2 a before last List.mem_cons_self)
  · exact Or.inl (List.mem_singleton.mp final)

end Rotation
