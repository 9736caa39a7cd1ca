import Mathlib.Data.Finset.Card
import Mathlib.Data.Finset.Dedup

/-! The most recent members of a set, by the number of each one's last event. -/
namespace Recent
universe u
variable {α : Type u} {last next : α → Nat} {keep : Nat} {s t : Finset α} {a b x : α} {xs : List α}

/-- `a` is among the `keep` most recent members of `s`. -/
def Among (last : α → Nat) (keep : Nat) (s : Finset α) (a : α) : Prop :=
  a ∈ s ∧ (s.filter fun b => last a < last b).card < keep

theorem Among.later (among : Among last keep s a) (member : b ∈ s) (later : last a ≤ last b) : Among last keep s b := by
  refine ⟨member, lt_of_le_of_lt (Finset.card_le_card ?_) among.2⟩
  intro c chosen
  simp only [Finset.mem_filter] at chosen ⊢
  exact ⟨chosen.1, lt_of_le_of_lt later chosen.2⟩

/-- Members that are more recent than one of the most recent are among them. -/
theorem filter_later (kept : ∀ b, b ∈ t ↔ Among last keep s b) (member : a ∈ t) :
    t.filter (fun b => last a < last b) = s.filter fun b => last a < last b := by
  ext b
  simp only [Finset.mem_filter]
  constructor
  · rintro ⟨inside, later⟩
    exact ⟨((kept b).mp inside).1, later⟩
  · rintro ⟨inside, later⟩
    exact ⟨(kept b).mpr (((kept a).mp member).later inside (Nat.le_of_lt later)), later⟩

variable [DecidableEq α]

/-- Of a list in descending order the first `keep` are the most recent. -/
theorem mem_take_iff (descending : xs.Pairwise fun a b => last b < last a) :
    a ∈ xs.take keep ↔ Among last keep xs.toFinset a := by
  unfold Among
  induction xs generalizing keep with
  | nil => simp
  | cons first rest ih =>
    obtain ⟨below, descending⟩ := List.pairwise_cons.mp descending
    have apart : first ∉ rest := fun inside => Nat.lt_irrefl _ (below first inside)
    cases keep with
    | zero => simp
    | succ n =>
      rw [List.take_succ_cons, List.mem_cons, ih descending, List.toFinset_cons]
      by_cases same : a = first
      · subst same
        have none : (insert a rest.toFinset).filter (fun b => last a < last b) = ∅ := by
          refine Finset.filter_false_of_mem fun b member => ?_
          rcases Finset.mem_insert.mp member with rfl | inside
          · exact Nat.lt_irrefl _
          · exact Nat.not_lt.mpr (Nat.le_of_lt (below b (List.mem_toFinset.mp inside)))
        rw [none]
        simp
      · rw [Finset.mem_insert, or_iff_right same, or_iff_right same]
        refine and_congr_right fun inside => ?_
        have ahead := below a (List.mem_toFinset.mp inside)
        have outside : first ∉ rest.toFinset.filter fun b => last a < last b := by simp [apart]
        rw [Finset.filter_insert, if_pos ahead, Finset.card_insert_of_notMem outside]
        omega

/-- Where `x` has just had its event, it makes no difference whether the others were cut before. -/
theorem among_insert (kept : ∀ b, b ∈ t ↔ Among last keep s b) (others : ∀ b, b ≠ x → next b = last b)
    (newest : ∀ b ∈ s, b ≠ x → next b < next x) :
    Among next keep (insert x t) a ↔ Among next keep (insert x s) a := by
  have part : ∀ b, b ∈ t → b ∈ s := fun b inside => ((kept b).mp inside).1
  by_cases same : a = x
  · subst same
    have none : ∀ u : Finset α, (∀ b ∈ u, b ∈ s) → (insert a u).filter (fun b => next a < next b) = ∅ := by
      intro u inside
      refine Finset.filter_false_of_mem fun b member => ?_
      by_cases equal : b = a
      · rw [equal]
        exact Nat.lt_irrefl _
      · have there := inside b ((Finset.mem_insert.mp member).resolve_left equal)
        exact Nat.not_lt.mpr (Nat.le_of_lt (newest b there equal))
    simp only [Among, none t part, none s fun _ => id, Finset.mem_insert_self, Finset.card_empty]
  · have count : ∀ u : Finset α, a ∈ s → ((insert x u).filter fun b => next a < next b).card =
        ((u.erase x).filter fun b => last a < last b).card + 1 := by
      intro u inside
      have later : next a < next x := newest a inside same
      have split : (insert x u).filter (fun b => next a < next b) =
          insert x ((u.erase x).filter fun b => last a < last b) := by
        ext b
        simp only [Finset.mem_filter, Finset.mem_insert, Finset.mem_erase]
        by_cases equal : b = x
        · subst equal
          simp [later]
        · rw [others b equal, others a same]
          simp [equal]
      rw [split, Finset.card_insert_of_notMem (by simp)]
    simp only [Among, Finset.mem_insert, or_iff_right same]
    constructor
    · rintro ⟨inside, few⟩
      have there := part a inside
      refine ⟨there, ?_⟩
      rw [count t there] at few
      rw [count s there]
      have equal := filter_later kept inside
      rw [Finset.filter_erase, ← equal, ← Finset.filter_erase]
      exact few
    · rintro ⟨there, few⟩
      rw [count s there] at few
      have close : (s.filter fun b => last a < last b).card ≤ ((s.erase x).filter fun b => last a < last b).card + 1 := by
        rw [Finset.filter_erase]
        have erased := Finset.pred_card_le_card_erase (s := s.filter fun b => last a < last b) (a := x)
        omega
      have inside : a ∈ t := (kept a).mpr ⟨there, lt_of_le_of_lt close few⟩
      refine ⟨inside, ?_⟩
      rw [count t there, Finset.filter_erase, filter_later kept inside, ← Finset.filter_erase]
      exact few

end Recent
