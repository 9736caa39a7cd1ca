import Mathlib.Algebra.BigOperators.Group.List.Basic
import Mathlib.Algebra.GroupWithZero.Nat
import Mathlib.Order.Lattice

universe u v

/-- A map with its entries listed by ascending key. -/
structure OrderedMap (K : Type u) (V : Type v) [LinearOrder K] where
  entries : List (K × V)
  sorted : entries.Pairwise (fun a b => a.1 < b.1)

namespace OrderedMap
variable {K : Type u} {V : Type v} [LinearOrder K] {m : OrderedMap K V} {k key : K} {value v : V}

instance : EmptyCollection (OrderedMap K V) := ⟨⟨[], List.Pairwise.nil⟩⟩

def size (m : OrderedMap K V) : Nat := m.entries.length

def get? (m : OrderedMap K V) (k : K) : Option V := (m.entries.find? fun e => decide (e.1 = k)).map (·.2)

def erase (m : OrderedMap K V) (k : K) : OrderedMap K V where
  entries := m.entries.filter fun e => decide (e.1 ≠ k)
  sorted := m.sorted.filter _

/-- The entry with the least key, and the map without it. -/
def popFirst (m : OrderedMap K V) : Option (V × OrderedMap K V) :=
  match m with
  | ⟨[], _⟩ => none
  | ⟨first :: rest, sorted⟩ => some (first.2, ⟨rest, (List.pairwise_cons.mp sorted).2⟩)

theorem insert_sorted (m : OrderedMap K V) (k : K) (v : V) :
    ((m.entries.filter fun e => decide (e.1 < k)) ++ (k, v) :: m.entries.filter fun e => decide (k < e.1)).Pairwise
      (fun a b => a.1 < b.1) := by
  refine List.pairwise_append.mpr ⟨m.sorted.filter _, List.pairwise_cons.mpr ⟨?_, m.sorted.filter _⟩, ?_⟩
  · intro e member
    exact of_decide_eq_true (List.mem_filter.mp member).2
  · intro a left b right
    have below := of_decide_eq_true (List.mem_filter.mp left).2
    rcases List.mem_cons.mp right with rfl | above
    · exact below
    · exact lt_trans below (of_decide_eq_true (List.mem_filter.mp above).2)

def insert (m : OrderedMap K V) (k : K) (v : V) : OrderedMap K V where
  entries := (m.entries.filter fun e => decide (e.1 < k)) ++ (k, v) :: m.entries.filter fun e => decide (k < e.1)
  sorted := m.insert_sorted k v

theorem get?_eq_some : m.get? k = some v ↔ (k, v) ∈ m.entries := by
  unfold get?
  constructor
  · intro found
    obtain ⟨e, first, rfl⟩ := Option.map_eq_some_iff.mp found
    have same : e.1 = k := by simpa using List.find?_some first
    rw [← same]
    exact List.mem_of_find?_eq_some first
  · intro member
    obtain ⟨entries, sorted⟩ := m
    simp only at member ⊢
    induction entries with
    | nil => exact absurd member List.not_mem_nil
    | cons first rest ih =>
      obtain ⟨below, sorted⟩ := List.pairwise_cons.mp sorted
      rcases List.mem_cons.mp member with rfl | later
      · simp
      · have differs : first.1 ≠ k := ne_of_lt (below (k, v) later)
        rw [List.find?_cons_of_neg (by simpa using differs)]
        exact ih sorted later

theorem get?_erase : (m.erase k).get? key = some v ↔ m.get? key = some v ∧ key ≠ k := by
  rw [get?_eq_some, get?_eq_some]
  exact List.mem_filter.trans (and_congr_right fun _ => decide_eq_true_iff)

theorem get?_insert_self : (m.insert k v).get? k = some v :=
  get?_eq_some.mpr (List.mem_append_right _ List.mem_cons_self)

theorem get?_insert (found : (m.insert k v).get? key = some value) :
    key = k ∧ value = v ∨ key ≠ k ∧ m.get? key = some value := by
  rcases List.mem_append.mp (get?_eq_some.mp found) with below | rest
  · obtain ⟨member, less⟩ := List.mem_filter.mp below
    exact Or.inr ⟨ne_of_lt (of_decide_eq_true less), get?_eq_some.mpr member⟩
  · rcases List.mem_cons.mp rest with same | above
    · exact Or.inl (Prod.mk.inj same)
    · obtain ⟨member, more⟩ := List.mem_filter.mp above
      exact Or.inr ⟨ne_of_gt (of_decide_eq_true more), get?_eq_some.mpr member⟩

theorem get?_popFirst {first : V} {rest : OrderedMap K V} (popped : m.popFirst = some (first, rest))
    (found : rest.get? key = some v) : m.get? key = some v := by
  unfold popFirst at popped
  split at popped
  · cases popped
  · cases popped
    exact get?_eq_some.mpr (List.mem_cons_of_mem _ (get?_eq_some.mp found))

theorem popFirst_none (empty : m.popFirst = none) : m.entries = [] := by
  unfold popFirst at empty
  split at empty
  · rfl
  · cases empty

theorem popFirst_size {first : V} {rest : OrderedMap K V} (popped : m.popFirst = some (first, rest)) :
    m.size = rest.size + 1 := by
  unfold popFirst at popped
  split at popped
  · cases popped
  · cases popped
    rfl

/-- The total of `weigh` over the values. -/
def weight (weigh : V → Nat) (m : OrderedMap K V) : Nat := (m.entries.map fun e => weigh e.2).sum

variable (weigh : V → Nat)

theorem weight_popFirst {first : V} {rest : OrderedMap K V} (popped : m.popFirst = some (first, rest)) :
    m.weight weigh = weigh first + rest.weight weigh := by
  unfold popFirst at popped
  split at popped
  · cases popped
  · cases popped
    simp [weight]

/-- What is erased is the value that was there. -/
theorem weight_erase (found : m.get? k = some v) :
    m.weight weigh = weigh v + (m.erase k).weight weigh ∧ m.size = (m.erase k).size + 1 := by
  have member := get?_eq_some.mp found
  clear found
  obtain ⟨entries, sorted⟩ := m
  unfold weight erase size
  simp only at member ⊢
  induction entries with
  | nil => exact absurd member List.not_mem_nil
  | cons first rest ih =>
    obtain ⟨below, sorted⟩ := List.pairwise_cons.mp sorted
    rcases List.mem_cons.mp member with rfl | later
    · have others : rest.filter (fun e => decide (e.1 ≠ k)) = rest := by
        refine List.filter_eq_self.mpr fun e member => ?_
        exact decide_eq_true (ne_of_gt (below e member))
      rw [List.filter_cons_of_neg (by simp), others]
      simp
    · have differs : first.1 ≠ k := ne_of_lt (below (k, v) later)
      obtain ⟨total, count⟩ := ih sorted later
      rw [List.filter_cons_of_pos (by simpa using differs)]
      simp only [List.map_cons, List.sum_cons, List.length_cons]
      omega

theorem erase_absent (absent : m.get? k = none) : m.erase k = m := by
  have same : m.entries.filter (fun e => decide (e.1 ≠ k)) = m.entries := by
    refine List.filter_eq_self.mpr fun e member => decide_eq_true fun equal => ?_
    have found : m.get? k = some e.2 := get?_eq_some.mpr (equal ▸ member)
    rw [absent] at found
    cases found
  obtain ⟨entries, sorted⟩ := m
  simpa only [erase, OrderedMap.mk.injEq] using same

/-- A new key adds its own value. -/
theorem weight_insert (absent : m.get? k = none) :
    (m.insert k v).weight weigh = m.weight weigh + weigh v ∧ (m.insert k v).size = m.size + 1 := by
  have other : ∀ e ∈ m.entries, e.1 ≠ k := by
    intro e member equal
    have found : m.get? k = some e.2 := get?_eq_some.mpr (equal ▸ member)
    rw [absent] at found
    cases found
  clear absent
  obtain ⟨entries, sorted⟩ := m
  unfold weight insert size
  simp only [List.map_append, List.map_cons, List.sum_append, List.sum_cons, List.length_append,
    List.length_cons] at other ⊢
  induction entries with
  | nil => simp
  | cons first rest ih =>
    obtain ⟨total, count⟩ := ih (List.pairwise_cons.mp sorted).2 fun e member => other e (List.mem_cons_of_mem _ member)
    rcases lt_or_gt_of_ne (other first List.mem_cons_self) with less | more
    · rw [List.filter_cons_of_pos (by simpa using less), List.filter_cons_of_neg (by simpa using le_of_lt less)]
      simp only [List.map_cons, List.sum_cons, List.length_cons]
      omega
    · rw [List.filter_cons_of_neg (by simpa using le_of_lt more), List.filter_cons_of_pos (by simpa using more)]
      simp only [List.map_cons, List.sum_cons, List.length_cons]
      omega

end OrderedMap
