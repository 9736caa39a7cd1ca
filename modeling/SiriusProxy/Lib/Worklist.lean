import Mathlib.Algebra.BigOperators.Group.List.Basic
import Mathlib.Algebra.GroupWithZero.Nat
import Mathlib.Data.List.FinRange
import Mathlib.Logic.Relation

namespace Worklist
universe u v w
variable {A : Type u} {K : Type v} {E : Type w}
  {key : A → K} {visit : A → Except E (List A)} {pending : List A} {visited : List K} {rounds : Nat}

/-- The visit of `a` leads to `b`. -/
def Finds (visit : A → Except E (List A)) (a b : A) : Prop := ∃ found, visit a = .ok found ∧ b ∈ found

/-- What a visited item led to is visited too, or waits. -/
def Open (key : A → K) (visit : A → Except E (List A)) (pending : List A) (visited : List K) : Prop :=
  ∀ a, key a ∈ visited → ∃ found, visit a = .ok found ∧ ∀ b ∈ found, key b ∈ visited ∨ b ∈ pending

theorem Open.pass {a : A} {rest : List A} (inv : Open key visit (a :: rest) visited) (seen : key a ∈ visited) :
    Open key visit rest visited := by
  intro b member
  obtain ⟨found, passed, waits⟩ := inv b member
  refine ⟨found, passed, fun c led => ?_⟩
  rcases waits c led with before | waiting
  · exact Or.inl before
  · rcases List.mem_cons.mp waiting with rfl | later
    · exact Or.inl seen
    · exact Or.inr later

theorem Open.advance {a : A} {rest found : List A} (distinct : Function.Injective key)
    (inv : Open key visit (a :: rest) visited) (passed : visit a = .ok found) :
    Open key visit (found ++ rest) (key a :: visited) := by
  intro b member
  rcases List.mem_cons.mp member with same | before
  · cases distinct same
    exact ⟨found, passed, fun c led => Or.inr (List.mem_append_left _ led)⟩
  · obtain ⟨old, kept, waits⟩ := inv b before
    refine ⟨old, kept, fun c led => ?_⟩
    rcases waits c led with seen | waiting
    · exact Or.inl (List.mem_cons_of_mem _ seen)
    · rcases List.mem_cons.mp waiting with rfl | later
      · exact Or.inl List.mem_cons_self
      · exact Or.inr (List.mem_append_right _ later)

variable [DecidableEq K]

/-- Pops items until none is pending; an item whose key was visited before is passed over, and what a
visit finds goes on top. `none` when the rounds are used up. -/
def drain (key : A → K) (visit : A → Except E (List A)) : Nat → List A → List K → Option (Except E Unit)
  | _, [], _ => some (.ok ())
  | 0, _ :: _, _ => none
  | rounds + 1, a :: rest, visited =>
    if key a ∈ visited then drain key visit rounds rest visited
    else match visit a with
      | .error e => some (.error e)
      | .ok found => drain key visit rounds (found ++ rest) (key a :: visited)

/-- A loop that ends well has a closed set of visited keys, that of every pending item among them. -/
theorem drain_closed (distinct : Function.Injective key) (inv : Open key visit pending visited)
    (done : drain key visit rounds pending visited = some (.ok ())) :
    ∃ all, (∀ k ∈ visited, k ∈ all) ∧ (∀ a ∈ pending, key a ∈ all) ∧ Open key visit [] all := by
  induction rounds generalizing pending visited with
  | zero =>
    cases pending with
    | nil => exact ⟨visited, fun _ member => member, fun a none => absurd none List.not_mem_nil, inv⟩
    | cons a rest => cases done
  | succ rounds ih =>
    cases pending with
    | nil => exact ⟨visited, fun _ member => member, fun a none => absurd none List.not_mem_nil, inv⟩
    | cons a rest =>
      simp only [drain] at done
      split at done
      · rename_i seen
        obtain ⟨all, kept, covers, closed⟩ := ih (inv.pass seen) done
        refine ⟨all, kept, fun b member => ?_, closed⟩
        rcases List.mem_cons.mp member with rfl | later
        · exact kept _ seen
        · exact covers b later
      · cases passed : visit a with
        | error e =>
          rw [passed] at done
          cases done
        | ok found =>
          rw [passed] at done
          obtain ⟨all, kept, covers, closed⟩ := ih (inv.advance distinct passed) done
          refine ⟨all, fun k member => kept k (List.mem_cons_of_mem _ member), fun b member => ?_, closed⟩
          rcases List.mem_cons.mp member with rfl | later
          · exact kept _ List.mem_cons_self
          · exact covers b (List.mem_append_right _ later)

/-- Every item that visits lead to from a pending one was visited without an error. -/
theorem drain_ok (distinct : Function.Injective key) (done : drain key visit rounds pending [] = some (.ok ()))
    {a b : A} (start : a ∈ pending) (reach : Relation.ReflTransGen (Finds visit) a b) :
    ∃ found, visit b = .ok found := by
  have initial : Open key visit pending [] := fun c none => absurd none List.not_mem_nil
  obtain ⟨all, -, covers, closed⟩ := drain_closed distinct initial done
  have member : key b ∈ all := by
    induction reach with
    | refl => exact covers a start
    | tail _ leads ih =>
      obtain ⟨found, passed, led⟩ := leads
      obtain ⟨same, again, waits⟩ := closed _ ih
      rw [passed] at again
      cases again
      exact (waits _ led).resolve_right List.not_mem_nil
  obtain ⟨found, passed, -⟩ := closed b member
  exact ⟨found, passed⟩

/-- Room for the items that may still be pushed: `cost` of every item not yet visited. -/
def room (key : A → K) (cost : A → Nat) (items : List A) (visited : List K) : Nat :=
  (items.map fun a => if key a ∈ visited then 0 else cost a).sum

theorem room_cons {cost : A → Nat} {items : List A} {a : A} :
    room key cost (a :: items) visited =
      (if key a ∈ visited then 0 else cost a) + room key cost items visited := by
  rw [room, List.map_cons, List.sum_cons, room]

theorem room_shrinks (key : A → K) (cost : A → Nat) (items : List A) (visited : List K) (k : K) :
    room key cost items (k :: visited) ≤ room key cost items visited := by
  induction items with
  | nil => exact Nat.le_refl _
  | cons a rest ih =>
    rw [room_cons, room_cons]
    by_cases seen : key a ∈ visited
    · rw [if_pos seen, if_pos (List.mem_cons_of_mem _ seen)]
      omega
    · rw [if_neg seen]
      split <;> omega

theorem room_visit (cost : A → Nat) {items : List A} {a : A} (listed : a ∈ items) (fresh : key a ∉ visited) :
    cost a + room key cost items (key a :: visited) ≤ room key cost items visited := by
  induction items with
  | nil => exact absurd listed List.not_mem_nil
  | cons b rest ih =>
    rw [room_cons, room_cons]
    rcases List.mem_cons.mp listed with rfl | later
    · have others := room_shrinks key cost rest visited (key a)
      rw [if_pos List.mem_cons_self, if_neg fresh]
      omega
    · have others := ih later
      by_cases seen : key b ∈ visited
      · rw [if_pos seen, if_pos (List.mem_cons_of_mem _ seen)]
        omega
      · rw [if_neg seen]
        split <;> omega

/-- The rounds suffice when they cover the pending items and all that the visits can still find. -/
theorem drain_isSome (cost : A → Nat) {items : List A} (complete : ∀ a, a ∈ items)
    (bounded : ∀ a found, visit a = .ok found → found.length ≤ cost a)
    (enough : pending.length + room key cost items visited ≤ rounds) :
    (drain key visit rounds pending visited).isSome := by
  induction rounds generalizing pending visited with
  | zero =>
    cases pending with
    | nil => rfl
    | cons a rest =>
      rw [List.length_cons] at enough
      omega
  | succ rounds ih =>
    cases pending with
    | nil => rfl
    | cons a rest =>
      rw [List.length_cons] at enough
      simp only [drain]
      split
      · exact ih (by omega)
      · rename_i fresh
        cases passed : visit a with
        | error e => rfl
        | ok found =>
          have few := bounded a found passed
          have less := room_visit cost (complete a) fresh
          refine ih ?_
          rw [List.length_append]
          omega

end Worklist
