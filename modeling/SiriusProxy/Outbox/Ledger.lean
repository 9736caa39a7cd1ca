import Mathlib.Tactic.SplitIfs
import SiriusProxy.Outbox.StoreSpec

namespace SiriusProxy.Outbox
variable {L : Library} {capacity : Nat} {ledger : Ledger} {key : String} {entry : Entry}

/-- What every ledger the program writes satisfies, and what `open` asks for. -/
structure Represents (L : Library) (capacity : Nat) (ledger : Ledger) : Prop where
  version : ledger.schemaVersion = 1
  bounded : ledger.entries.size ≤ capacity
  cursor : ∀ key, ledger.reconciliationCursor = some key → ledger.entries.contains key
  keyed : ∀ (key : String) (entry : Entry), ledger.entries[key]? = some entry → entry.identity.key L = .ok key
  valid : ∀ (key : String) (entry : Entry), ledger.entries[key]? = some entry → validState L entry.state

theorem mem_toList : (key, entry) ∈ ledger.entries.toList ↔ ledger.entries[key]? = some entry :=
  Std.TreeMap.mem_toList_iff_getElem?_eq_some

/-- `open` accepts exactly the ledgers that represent an outbox of this capacity. -/
theorem accepts_iff : accepts L capacity ledger ↔ Represents L capacity ledger := by
  simp only [accepts, Bool.and_eq_true, beq_iff_eq, decide_eq_true_eq, List.all_eq_true, Prod.forall,
    mem_toList, Option.all_eq_true]
  constructor
  · rintro ⟨⟨⟨version, bounded⟩, cursor⟩, entries⟩
    refine ⟨version, bounded, cursor, ?_, fun key entry held => (entries key entry held).2⟩
    intro key entry held
    have named := (entries key entry held).1
    split at named
    · rename_i k same
      rw [same, eq_of_beq named]
    · exact absurd named Bool.false_ne_true
  · rintro ⟨version, bounded, cursor, keyed, valid⟩
    refine ⟨⟨⟨version, bounded⟩, cursor⟩, fun key entry held => ⟨?_, valid key entry held⟩⟩
    rw [keyed key entry held]
    exact beq_self_eq_true key

theorem getElem?_put (ledger : Ledger) (key other : String) (entry : Entry) :
    (ledger.put key entry).entries[other]? = if key = other then some entry else ledger.entries[other]? := by
  simp only [Ledger.put, Std.TreeMap.getElem?_insert, Std.LawfulEqOrd.compare_eq_iff_eq]

theorem getElem?_remove (ledger : Ledger) (key other : String) :
    (ledger.remove key).entries[other]? = if key = other then none else ledger.entries[other]? := by
  simp only [Ledger.remove, Std.TreeMap.getElem?_erase, Std.LawfulEqOrd.compare_eq_iff_eq]

/-- Entries may be written under their own key while the ledger stays within its capacity. -/
theorem Represents.put (ok : Represents L capacity ledger) (named : entry.identity.key L = .ok key)
    (valid : validState L entry.state) (room : ledger.entries.contains key ∨ ledger.entries.size < capacity) :
    Represents L capacity (ledger.put key entry) where
  version := ok.version
  bounded := by
    have bounded := ok.bounded
    simp only [Ledger.put, Std.TreeMap.size_insert]
    rcases room with held | room
    · rw [if_pos held]
      exact bounded
    · split_ifs <;> omega
  cursor := by
    intro other points
    have held := ok.cursor other points
    simp only [Ledger.put, Std.TreeMap.contains_insert, held, Bool.or_true]
  keyed := by
    intro other e held
    rw [getElem?_put] at held
    split_ifs at held with same
    · cases held
      exact same ▸ named
    · exact ok.keyed other e held
  valid := by
    intro other e held
    rw [getElem?_put] at held
    split_ifs at held
    · cases held
      exact valid
    · exact ok.valid other e held

/-- An entry may always be taken out. The ledger does not grow, and a cursor that named the entry is cleared with
it, so the cursor still names an entry that is there. -/
theorem Represents.remove (ok : Represents L capacity ledger) : Represents L capacity (ledger.remove key) where
  version := ok.version
  bounded := by
    have shrinks : (ledger.entries.erase key).size ≤ ledger.entries.size := Std.TreeMap.size_erase_le
    exact Nat.le_trans shrinks ok.bounded
  cursor := by
    intro other points
    simp only [Ledger.remove] at points
    split_ifs at points with named
    have held := ok.cursor other points
    have differs : key ≠ other := fun same => named (same ▸ points)
    simp only [Ledger.remove, Std.TreeMap.contains_erase, held, Bool.and_true, bne_iff_ne, ne_eq,
      Std.LawfulEqOrd.compare_eq_iff_eq]
    simpa using differs
  keyed := by
    intro other e held
    rw [getElem?_remove] at held
    split_ifs at held
    exact ok.keyed other e held
  valid := by
    intro other e held
    rw [getElem?_remove] at held
    split_ifs at held
    exact ok.valid other e held

/-- The cursor may be set to any entry that is there; nothing else of the ledger speaks of it. -/
theorem Represents.point (ok : Represents L capacity ledger) (held : ledger.entries.contains key) :
    Represents L capacity { ledger with reconciliationCursor := some key } where
  version := ok.version
  bounded := ok.bounded
  cursor := by
    rintro other ⟨⟩
    exact held
  keyed := ok.keyed
  valid := ok.valid

section Transitions
variable {id code : String} {now : Instant} {state next target : State}

/-- A send begins from a pending entry, or is repeated with the time at which it began. -/
theorem beginSendState_target (step : beginSendState now state = .ok next) :
    (∃ since, next = .sending since) ∧ (state = .pending ∨ state = next) := by
  cases state <;> cases step
  · exact ⟨⟨now, rfl⟩, Or.inl rfl⟩
  · exact ⟨⟨_, rfl⟩, Or.inr rfl⟩

/-- Only an entry that is being sent goes back to pending, so a refusal never undoes a submission. -/
theorem refusedState_target (step : refusedState state = .ok next) :
    next = .pending ∧ ∃ since, state = .sending since := by
  cases state <;> cases step
  exact ⟨rfl, _, rfl⟩

/-- An acknowledgement submits an entry that is being sent. On a submitted one it changes nothing, and only for the
same job. -/
theorem acknowledgeState_target (step : acknowledgeState id state = .ok next) :
    next = .submitted id ∧ ((∃ since, state = .sending since) ∨ state = .submitted id) := by
  cases state with
  | sending since =>
    cases step
    exact ⟨rfl, Or.inl ⟨since, rfl⟩⟩
  | submitted jobId =>
    simp only [acknowledgeState] at step
    split_ifs at step with same
    cases step
    exact ⟨same ▸ rfl, Or.inr (same ▸ rfl)⟩
  | _ => cases step

/-- An operator adopts a job for an entry that is being sent or failed without a job, or names the job that is
there already. A pending entry has nothing to adopt. -/
theorem adoptState_target (step : adoptState id state = .ok next) :
    next = .submitted id ∧ state ≠ .pending := by
  cases state with
  | sending since =>
    cases step
    exact ⟨rfl, nofun⟩
  | submitted jobId =>
    simp only [adoptState] at step
    split_ifs at step with same
    cases step
    exact ⟨same ▸ rfl, nofun⟩
  | failed jobId code =>
    cases jobId with
    | none =>
      simp only [adoptState] at step
      split_ifs at step
      cases step
      exact ⟨rfl, nofun⟩
    | some jobId => cases step
  | _ => cases step

/-- An entry is completed from a submission of the same job, or is already in the very state asked for. -/
theorem completeState_target (step : completeState target id state = .ok next) :
    next = target ∧ (state = .submitted id ∨ state = target) := by
  unfold completeState at step
  split at step
  · split_ifs at step with same
    cases step
    exact ⟨rfl, Or.inl (same ▸ rfl)⟩
  · split_ifs at step with same
    cases step
    exact ⟨same, Or.inr same⟩

/-- A failure keeps the job of a submitted entry and invents none for the others. -/
theorem failState_target (step : failState code state = .ok next) :
    ∃ jobId, next = .failed jobId code ∧ (jobId = none ∨ ∃ id, jobId = some id ∧ state = .submitted id) := by
  cases state <;> cases step
  · exact ⟨none, rfl, Or.inl rfl⟩
  · exact ⟨none, rfl, Or.inl rfl⟩
  · exact ⟨some _, rfl, Or.inr ⟨_, rfl, rfl⟩⟩

/-- The completed state is valid once the catalog's hash and the publication were checked: its job is the one that
was valid before. -/
theorem completeState_valid {catalogSha256 : String} {publicationId : Option String}
    (hashed : digest catalogSha256) (published : publicationId.all (uuid L)) (valid : validState L state)
    (step : completeState (.completed id catalogSha256 publicationId) id state = .ok next) :
    validState L next := by
  obtain ⟨rfl, rfl | rfl⟩ := completeState_target step
  · simp only [validState, Bool.and_eq_true]
    exact ⟨⟨valid, hashed⟩, published⟩
  · exact valid

/-- The failed state is valid once its code was checked, for the same reason. -/
theorem failState_valid (named : validCode code) (valid : validState L state)
    (step : failState code state = .ok next) : validState L next := by
  obtain ⟨jobId, rfl, rfl | ⟨id, rfl, rfl⟩⟩ := failState_target step
  · simp only [validState, Option.all_none, Bool.true_and]
    exact named
  · simp only [validState, Option.all_some, Bool.and_eq_true]
    exact ⟨valid, named⟩

end Transitions

end SiriusProxy.Outbox
