import Mathlib.Data.List.Forall2
import Mathlib.Data.List.Nodup

/-! A table with a primary key, as the list of its rows. -/
namespace Rows
universe u v
variable {α : Type u} {κ : Type v} [DecidableEq κ] {key : α → κ} {rows : List α} {k : κ} {f : α → α} {row : α}

def find (key : α → κ) (k : κ) (rows : List α) : Option α := rows.find? fun row => decide (key row = k)

def update (key : α → κ) (k : κ) (f : α → α) (rows : List α) : List α :=
  rows.map fun row => if key row = k then f row else row

/-- A row that is found is in the table under the key that was asked for. -/
theorem find_some (found : find key k rows = some row) : row ∈ rows ∧ key row = k :=
  ⟨List.mem_of_find?_eq_some found, by simpa using List.find?_some found⟩

theorem find_none (missing : find key k rows = none) (member : row ∈ rows) : key row ≠ k := by
  simpa using List.find?_eq_none.mp missing row member

/-- Where the keys are distinct, a row is what its own key finds. -/
theorem find_member (distinct : (rows.map key).Nodup) (member : row ∈ rows) : find key (key row) rows = some row := by
  cases found : find key (key row) rows with
  | none => exact absurd rfl (find_none found member)
  | some other =>
    obtain ⟨inside, same⟩ := find_some found
    rw [List.inj_on_of_nodup_map distinct inside member same]

/-- A change of a row that leaves its key alone leaves the keys of the table alone, in number and in order. -/
theorem map_key_update (keeps : ∀ row, key (f row) = key row) : (update key k f rows).map key = rows.map key := by
  rw [update, List.map_map]
  refine List.map_congr_left fun row _ => ?_
  simp only [Function.comp_apply]
  split
  · exact keeps row
  · rfl

theorem nodup_update (keeps : ∀ row, key (f row) = key row) (distinct : (rows.map key).Nodup) :
    ((update key k f rows).map key).Nodup := by
  rw [map_key_update keeps]
  exact distinct

/-- A row of an updated table was there before, or is the one that was changed. -/
theorem mem_update {new : α} (member : new ∈ update key k f rows) :
    ∃ row ∈ rows, key row = k ∧ new = f row ∨ key row ≠ k ∧ new = row := by
  obtain ⟨row, inside, same⟩ := List.mem_map.mp member
  refine ⟨row, inside, ?_⟩
  split at same
  · rename_i equal
    exact Or.inl ⟨equal, same.symm⟩
  · rename_i differs
    exact Or.inr ⟨differs, same.symm⟩

/-- A row whose key is not there yet may be added without a second one of its key. -/
theorem nodup_append_new {new : α} (distinct : (rows.map key).Nodup) (missing : find key (key new) rows = none) :
    ((rows ++ [new]).map key).Nodup := by
  rw [List.map_append, List.nodup_append]
  refine ⟨distinct, by simp, ?_⟩
  intro a first b last same
  obtain ⟨row, inside, rfl⟩ := List.mem_map.mp first
  obtain rfl : b = key new := by simpa using last
  exact find_none missing inside same

/-- What a row of one table has in a table that corresponds to it row by row. -/
theorem mem_forall₂ {β : Type v} {R : α → β → Prop} {others : List β} (each : List.Forall₂ R rows others)
    (member : row ∈ rows) : ∃ other ∈ others, R row other := by
  induction each with
  | nil => exact absurd member List.not_mem_nil
  | @cons first other rest others head tail ih =>
    rcases List.mem_cons.mp member with rfl | later
    · exact ⟨other, List.mem_cons_self, head⟩
    · obtain ⟨found, inside, related⟩ := ih later
      exact ⟨found, List.mem_cons_of_mem _ inside, related⟩

end Rows
