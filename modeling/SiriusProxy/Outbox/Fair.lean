import Mathlib.Data.String.Basic
import SiriusProxy.Lib.Rotation
import SiriusProxy.Outbox.Durable

namespace SiriusProxy.Outbox
open Effect Rotation
variable {L : Library} {s t : Store L} {n m : Node L} {l : Label} {key other : String} {before after : Ledger}
  {keys : List String} {archived : Option String}

/-- The ledger has work under this key that is not finished. -/
def Live (ledger : Ledger) (key : String) : Prop :=
  ∃ entry : Entry, ledger.entries[key]? = some entry ∧ entry.state.terminal = false

/-- The keys of `rotation`. -/
def turns (ledger : Ledger) : List String := (rotation ledger).map (·.1)

theorem sorted_toList (ledger : Ledger) : ledger.entries.toList.Pairwise (fun a b => a.1 < b.1) := by
  refine Std.TreeMap.ordered_keys_toList.imp fun {a b} below => ?_
  exact compare_lt_iff_lt.mp below

/-- The turns are the unfinished entries, each behind the cursor or before it. -/
theorem mem_turns {ledger : Ledger} : key ∈ turns ledger ↔ Live ledger key := by
  unfold turns rotation Live
  simp only [List.mem_map, List.mem_filter, List.mem_append, Prod.exists, mem_toList, Bool.not_eq_true']
  constructor
  · rintro ⟨_, entry, ⟨⟨held, -⟩ | ⟨held, -⟩, live⟩, rfl⟩
    · exact ⟨entry, held, live⟩
    · exact ⟨entry, held, live⟩
  · rintro ⟨entry, held, live⟩
    refine ⟨key, entry, ⟨?_, live⟩, rfl⟩
    cases ledger.reconciliationCursor with
    | none => exact Or.inl ⟨held, rfl⟩
    | some cursor =>
      rcases lt_or_ge cursor key with after | before
      · exact Or.inl ⟨held, decide_eq_true after⟩
      · exact Or.inr ⟨held, decide_eq_true before⟩

/-- The rotation begins behind the cursor and comes to the entries up to it last. -/
theorem turns_ordered (ledger : Ledger) : (turns ledger).Pairwise (Ahead ledger.reconciliationCursor) := by
  have sorted := sorted_toList ledger
  unfold turns rotation
  refine List.pairwise_map.mpr (List.Pairwise.filter _ ?_)
  cases ledger.reconciliationCursor with
  | none =>
    simp only [List.filter_true, List.filter_false, List.append_nil]
    exact sorted.imp fun below => ahead_none.mpr below
  | some cursor =>
    simp only [List.pairwise_append, List.mem_filter, decide_eq_true_eq]
    refine ⟨(sorted.filter _).imp_of_mem ?_, (sorted.filter _).imp_of_mem ?_, ?_⟩
    · intro a b first second below
      have early := of_decide_eq_true (List.mem_filter.mp first).2
      have late := of_decide_eq_true (List.mem_filter.mp second).2
      exact Or.inr ⟨iff_of_false (wrapped_some.not.mpr early.not_ge) (wrapped_some.not.mpr late.not_ge), below⟩
    · intro a b first second below
      have early := of_decide_eq_true (List.mem_filter.mp first).2
      have late := of_decide_eq_true (List.mem_filter.mp second).2
      exact Or.inr ⟨iff_of_true (wrapped_some.mpr early) (wrapped_some.mpr late), below⟩
    · rintro a ⟨-, after⟩ b ⟨-, before⟩
      exact Or.inl ⟨wrapped_some.not.mpr after.not_ge, wrapped_some.mpr before⟩

/-- The keys that a call of `next_batch` hands out. -/
def selects (n : Node L) : Label → List String
  | .perform (.nextBatch limit) fates =>
    if n.alive then match nextBatch limit { n.store with fates := fates } with
      | (.ok batch, _) => batch.map (·.1)
      | (.error _, _) => []
    else []
  | _ => []

def Operation.archives : Operation → Option String
  | .archiveCompleted key _ => some key
  | _ => none

/-- The key that a call asks `archive_completed` to remove. -/
def archives : Label → Option String
  | .perform op _ => op.archives
  | _ => none

/-- A call that archives the entry the cursor names, with that entry at `key` or after it and before
`other`. The cursor is gone, so the next rotation starts over and comes to `key` first. -/
def Rewinds (key other : String) (n : Node L) (l : Label) : Prop :=
  ∃ cursor, archives l = some cursor ∧ n.store.ledger.reconciliationCursor = some cursor ∧
    key ≤ cursor ∧ cursor < other ∧ ∃ m, step n l = some m ∧ m.store.ledger.reconciliationCursor = none

/-- What a step does to the rotation: nothing, a start over after the archiving of the cursor's own
entry, or a batch. -/
inductive Turn (archived : Option String) (before after : Ledger) : List String → Prop
  | same : after.reconciliationCursor = before.reconciliationCursor → Turn archived before after []
  | restart (cursor : String) : archived = some cursor → before.reconciliationCursor = some cursor →
      after.reconciliationCursor = none → Turn archived before after []
  | batch (limit : Nat) (last : String) : ((turns before).take limit).getLast? = some last →
      after = { before with reconciliationCursor := some last } →
      Turn archived before after ((turns before).take limit)

theorem Moved.turn {f : State → Except Error State} (moved : Moved s key f t) :
    Turn archived s.ledger t.ledger [] := by
  obtain ⟨entry, state, -, -, near⟩ := moved
  refine .same ?_
  rw [near.ledger]
  rfl

/-- An observed job leaves the cursor where it is. -/
theorem Observed.turn {identity : Identity} (observed : Observed s identity key t) :
    Turn archived s.ledger t.ledger [] := by
  obtain ⟨-, ⟨-, near⟩ | ⟨-, -, -, near⟩ | ⟨-, -, -, u, rfl, near⟩⟩ := observed
  · exact .same (by rw [near.ledger])
  · exact .same (by rw [near.ledger])
  · refine .same ?_
    rw [near.ledger]
    rfl

/-- Only the archiving of the cursor's own entry moves the cursor. -/
theorem remove_turn (ledger : Ledger) : Turn (some key) ledger (ledger.remove key) [] := by
  by_cases named : ledger.reconciliationCursor = some key
  · exact .restart key rfl named (if_pos named)
  · exact .same (if_neg named)

/-- An archived entry resets the cursor if that stood at its key, and leaves it otherwise. -/
theorem Archived.turn (done : Archived s key t) : Turn (some key) s.ledger t.ledger [] := by
  obtain ⟨-, near⟩ | ⟨entry, -, ⟨-, near⟩ | ⟨-, near⟩⟩ := done
  · exact .same (by rw [near.ledger])
  · rw [near.ledger]
    exact remove_turn s.ledger
  · rw [near.ledger]
    exact remove_turn s.ledger

/-- A batch is taken from the front of the rotation, and the cursor then stands at its last entry. -/
theorem Selected.turn {limit : Nat} {batch : List (String × Entry)} (selected : Selected s limit batch t) :
    Turn archived s.ledger t.ledger (batch.map (·.1)) := by
  obtain ⟨rfl, ⟨empty, near⟩ | ⟨key, entry, last, near⟩⟩ := selected
  · rw [empty]
    exact .same (by rw [near.ledger])
  · rw [List.map_take]
    refine .batch limit key ?_ near.ledger
    unfold turns
    rw [← List.map_take, List.getLast?_map, last]
    rfl

/-- What the calls other than `next_batch` do to the rotation when they succeed. -/
theorem Operation.run_turn {op : Operation}
    (other : ∀ limit, op ≠ .nextBatch limit) :
    Triple (Near s) (op.run (L := L)) (fun _ t => Turn op.archives s.ledger t.ledger []) (fun _ _ => True) := by
  have moved {archived : Option String} {f : State → Except Error State} {key : String} :
      Triple (Near s) (change key f) (fun _ t => Turn archived s.ledger t.ledger []) (fun _ _ => True) :=
    (change_moved key f).weaken (fun _ _ done => done.turn) fun _ _ _ => trivial
  cases op with
  | observe identity =>
    exact drop_value ((observe_spec identity).weaken (fun _ _ done => done.turn) fun _ _ _ => trivial)
  | beginSend key now => exact moved
  | refused key => exact moved
  | acknowledge key id =>
    exact (acknowledge_spec key id).weaken (fun _ _ done => done.2.turn) fun _ _ _ => trivial
  | adopt key id => exact (adopt_spec key id).weaken (fun _ _ done => done.2.turn) fun _ _ _ => trivial
  | complete key id catalogSha256 publicationId =>
    exact (complete_spec key id catalogSha256 publicationId).weaken (fun _ _ done => done.2.turn) fun _ _ _ => trivial
  | fail key code => exact (fail_spec key code).weaken (fun _ _ done => done.2.turn) fun _ _ _ => trivial
  | nextBatch limit => exact absurd rfl (other limit)
  | archiveCompleted key expectedJobId =>
    exact drop_value ((archiveCompleted_spec key expectedJobId).weaken (fun _ _ done => done.turn) fun _ _ _ => trivial)

/-- Every step of the process keeps what is in order about the store. -/
theorem step_saved (saved : Saved n.store) (taken : step n l = some m) : Saved m.store := by
  have inv : n.Inv := by
    unfold Node.Inv
    split_ifs
    · exact saved
    · exact Or.inr saved
  have reached := step_inv inv taken
  unfold Node.Inv at reached
  split_ifs at reached with alive
  · exact reached
  -- A process that is not there leaves the file it had.
  cases l with
  | crash =>
    cases taken
    exact saved
  | openAt capacity fates =>
    simp only [step] at taken
    split_ifs at taken
    · cases taken
      exact saved
    · split at taken
      · cases taken
        exact absurd rfl alive
      · rename_i e t run
        cases taken
        exact ((openOutbox_spec capacity _ (Near.with_fates n.store fates)).2 _ _ run).saved saved
  | perform op fates =>
    simp only [step] at taken
    split_ifs at taken
    have spec := op.run_spec saved _ (Near.with_fates n.store fates)
    split at taken
    · rename_i t run
      cases taken
      exact (spec.2 _ _ run).1
    · cases taken
      exact absurd rfl alive

/-- Selecting a batch is the one step that gives entries their turn. -/
theorem step_nextBatch {limit : Nat} {fates : List Fate} (alive : n.alive = true)
    (taken : step n (.perform (.nextBatch limit) fates) = some m) :
    Turn archived n.store.ledger m.store.ledger (selects n (.perform (.nextBatch limit) fates)) := by
  obtain ⟨done, stopped⟩ := nextBatch_spec limit _ (Near.with_fates n.store fates)
  cases run : nextBatch limit { n.store with fates := fates } with
  | mk result t =>
    have whole : (Operation.nextBatch limit).run { n.store with fates := fates } = (result.map fun _ => ⟨⟩, t) := by
      change Prog.bind (nextBatch limit) (fun _ => Prog.pure PUnit.unit) _ = _
      unfold Prog.bind
      rw [run]
      cases result <;> rfl
    simp only [step, selects, if_pos alive, run, whole] at taken ⊢
    cases result with
    | ok batch =>
      cases taken
      exact (done _ _ run).turn
    | error e =>
      have same : m.store = t := by
        cases e <;> cases taken <;> rfl
      rw [same]
      exact .same (by rw [(stopped _ _ run).frame.1])

/-- What each step does to the cursor and the rotation, by the operations. -/
theorem step_turn (saved : Saved n.store) (taken : step n l = some m) :
    Turn (archives l) n.store.ledger m.store.ledger (selects n l) := by
  cases l with
  | crash =>
    cases taken
    exact .same rfl
  | openAt capacity fates =>
    simp only [step] at taken
    split_ifs at taken
    · cases taken
      exact .same rfl
    have spec := openOutbox_spec (s := n.store) capacity _ (Near.with_fates n.store fates)
    split at taken
    · rename_i t run
      cases taken
      obtain ⟨-, ledger, read, -, near⟩ := spec.1 _ _ run
      obtain rfl : ledger = n.store.ledger := Except.ok.inj (read.symm.trans saved.read)
      refine .same ?_
      rw [near.ledger]
      rfl
    · rename_i e t run
      cases taken
      exact .same (by rw [(spec.2 _ _ run).frame.1])
  | perform op fates =>
    have alive : n.alive = true := by
      simp only [step] at taken
      split_ifs at taken with alive
      exact alive
    by_cases chosen : ∃ limit, op = .nextBatch limit
    · obtain ⟨limit, rfl⟩ := chosen
      exact step_nextBatch alive taken
    have idle : selects n (.perform op fates) = [] := by
      cases op with
      | nextBatch limit => exact absurd ⟨limit, rfl⟩ chosen
      | _ => rfl
    have spec := Operation.run_turn (fun limit same => chosen ⟨limit, same⟩) _ (Near.with_fates n.store fates)
    have left := (op.run_spec saved _ (Near.with_fates n.store fates)).2
    rw [idle]
    simp only [step, if_pos alive] at taken
    split at taken
    · rename_i t run
      cases taken
      exact .same (by rw [(left _ _ run).2.1])
    · rename_i r t notCrashed run
      cases taken
      cases r with
      | ok value => exact spec.1 _ _ run
      | error e => exact .same (by rw [(left _ _ run).2.1])

/-- The work still owed a turn before `key` has its next one. -/
def Owed (ledger : Ledger) (key other : String) : Prop := Ahead ledger.reconciliationCursor other key

/-- A step keeps work owed its turn unless it hands the work out or rewinds past it. -/
theorem Turn.owed (turn : Turn archived before after keys) (live : Live before other)
    (owed : Owed before key other) (left : other ∉ keys)
    (free : ∀ cursor, archived = some cursor → before.reconciliationCursor = some cursor →
      after.reconciliationCursor = none → key ≤ cursor → ¬ cursor < other) : Owed after key other := by
  unfold Owed at *
  cases turn with
  | same cursor =>
    rw [cursor]
    exact owed
  | restart cursor asked named gone =>
    rw [gone]
    refine owed.restart fun c held reached => ?_
    obtain rfl : cursor = c := Option.some.inj (named.symm.trans held)
    exact free cursor asked named gone reached
  | batch limit last ends pointed =>
    rw [pointed]
    have chosen : last ∈ (turns before).take limit := List.mem_of_getLast? ends
    exact (ahead_of_notMem_take (turns_ordered before) chosen (mem_turns.mpr live) left).behind owed

/-- Once `key` had its turn, work that did not have one after it in the same batch is owed one. -/
theorem Turn.owes (turn : Turn archived before after keys) (live : Live after other)
    (chosen : key ∈ keys) (distinct : other ≠ key) (left : ¬ [key, other].Sublist keys) : Owed after key other := by
  unfold Owed
  cases turn with
  | same => exact absurd chosen List.not_mem_nil
  | restart => exact absurd chosen List.not_mem_nil
  | batch limit last ends pointed =>
    subst pointed
    have ordered := turns_ordered before
    have prior := ordered.sublist (List.take_sublist limit _)
    have reached := reaches_last prior ends chosen
    by_cases member : other ∈ (turns before).take limit
    · refine Ahead.kept ?_ reached
      obtain ⟨early, late, split⟩ := List.append_of_mem chosen
      rw [split] at left member prior
      rcases List.mem_append.mp member with first | second
      · exact (List.pairwise_append.mp prior).2.2 other first key List.mem_cons_self
      · refine absurd ?_ left
        rcases List.mem_cons.mp second with same | later
        · exact absurd same distinct
        · exact ((List.singleton_sublist.mpr later).cons_cons key).trans (List.sublist_append_right early _)
    · have final : last ∈ (turns before).take limit := List.mem_of_getLast? ends
      exact Ahead.passed reached (ahead_of_notMem_take ordered final (mem_turns.mpr live) member)

/-- Work that is owed a turn has one by the next turn of `key`. -/
theorem Turn.served (turn : Turn archived before after keys) (live : Live before other)
    (owed : Owed before key other) (chosen : key ∈ keys) : other ∈ keys := by
  cases turn with
  | same => exact absurd chosen List.not_mem_nil
  | restart => exact absurd chosen List.not_mem_nil
  | batch limit last ends pointed => exact mem_take_of_ahead (turns_ordered before) chosen (mem_turns.mpr live) owed

/-- Along a run that does not rewind past it, work stays owed its turn until it has one. -/
theorem path_owed {between : List (Node L × Label)} (path : Run.Path step n between m) (saved : Saved n.store)
    (waiting : ∀ visit ∈ between, Live visit.1.store.ledger other)
    (kept : ∀ visit ∈ between, ¬ Rewinds key other visit.1 visit.2)
    (owed : Owed n.store.ledger key other) :
    (∃ visit ∈ between, other ∈ selects visit.1 visit.2) ∨ (Saved m.store ∧ Owed m.store.ledger key other) := by
  induction path with
  | done => exact Or.inr ⟨saved, owed⟩
  | @next before after stop label rest taken _ ih =>
    obtain ⟨live, waiting⟩ := List.forall_mem_cons.mp waiting
    obtain ⟨steady, kept⟩ := List.forall_mem_cons.mp kept
    by_cases served : other ∈ selects before label
    · exact Or.inl ⟨(before, label), List.mem_cons_self, served⟩
    have still : Owed after.store.ledger key other := by
      refine (step_turn saved taken).owed live owed served fun cursor asked named gone reached passed => ?_
      exact steady ⟨cursor, asked, named, reached, passed, after, taken, gone⟩
    rcases ih (step_saved saved taken) waiting kept still with ⟨visit, member, served⟩ | final
    · exact Or.inl ⟨visit, List.mem_cons_of_mem _ member, served⟩
    · exact Or.inr final

/-- Two successive turns of `key`, with `other` unfinished from the first to the second. -/
structure Rounds (key other : String) (start : Node L) (first : Label) (between : List (Node L × Label))
    (stop : Node L) (second : Label) : Prop where
  reach : Run.Reach step (fun _ _ => True) {} start
  path : ∃ opened, step start first = some opened ∧ Run.Path step opened between stop
  turn : key ∈ selects start first
  skipped : ∀ visit ∈ between, key ∉ selects visit.1 visit.2
  again : key ∈ selects stop second
  answers : ∃ final, step stop second = some final
  distinct : other ≠ key
  waiting : ∀ visit ∈ between ++ [(stop, second)], Live visit.1.store.ledger other

/-- Some call after the first turn, up to and including the second, hands out `other`. -/
def Served (other : String) (between : List (Node L × Label)) (stop : Node L) (second : Label) : Prop :=
  ∃ visit ∈ between ++ [(stop, second)], other ∈ selects visit.1 visit.2

/-- Only a process that runs selects a batch. -/
theorem selects_alive {label : Label} (chosen : key ∈ selects n label) : n.alive = true := by
  unfold selects at chosen
  split at chosen
  · split_ifs at chosen with alive
    · exact alive
    · exact absurd chosen List.not_mem_nil
  · exact absurd chosen List.not_mem_nil

/-- Between two turns of a key all other unfinished work has one, in the first batch after the key or
in a later call, unless an archived cursor in between lay at or after the key and before that work. -/
theorem rotation_fair {start stop : Node L} {first second : Label} {between : List (Node L × Label)}
    (rounds : Rounds key other start first between stop second)
    (kept : ∀ visit ∈ between, ¬ Rewinds key other visit.1 visit.2) :
    [key, other].Sublist (selects start first) ∨ Served other between stop second := by
  obtain ⟨opened, taken, path⟩ := rounds.path
  obtain ⟨final, answered⟩ := rounds.answers
  have alive := selects_alive rounds.turn
  have saved : Saved start.store := by
    have inv := reach_inv rounds.reach
    unfold Node.Inv at inv
    rwa [if_pos alive] at inv
  by_cases early : [key, other].Sublist (selects start first)
  · exact Or.inl early
  have waiting := List.forall_mem_append.mp rounds.waiting
  have live : Live stop.store.ledger other := waiting.2 _ List.mem_cons_self
  have began : Live opened.store.ledger other := by
    cases path with
    | done => exact live
    | next _ _ => exact waiting.1 _ List.mem_cons_self
  have owed := (step_turn saved taken).owes began rounds.turn rounds.distinct early
  rcases path_owed path (step_saved saved taken) waiting.1 kept owed with ⟨visit, member, served⟩ | ⟨held, owed⟩
  · exact Or.inr ⟨visit, List.mem_append_left _ member, served⟩
  · refine Or.inr ⟨(stop, second), List.mem_append_right _ List.mem_cons_self, ?_⟩
    exact (step_turn held answered).served live owed rounds.again

/-- The states of two passes and of the calls between them. -/
def trial (L : Library) (before : List Label) (first : Label) (middle : List Label) (second : Label) :
    Option (Node L × List (Node L × Label) × Node L) := do
  let start ← Run.exec step {} before
  let opened ← step start first
  let stop ← Run.exec step opened middle
  let _ ← step stop second
  some (start, Run.visits step opened middle, stop)

def live (ledger : Ledger) (key : String) : Bool := ledger.entries[key]?.any fun entry => !entry.state.terminal

/-- What a trial shows of the turns in it, and whether `others` were unfinished from its first pass on. -/
def outcome (others : List String) (first second : Label) (states : Node L × List (Node L × Label) × Node L) :
    List String × List (List String) × List String × Bool :=
  (selects states.1 first, states.2.1.map fun visit => selects visit.1 visit.2, selects states.2.2 second,
    (states.2.1 ++ [(states.2.2, second)]).all fun visit => others.all (live visit.1.store.ledger))

theorem live_iff {ledger : Ledger} : live ledger key = true ↔ Live ledger key := by
  simp only [live, Live, Option.any_eq_true, Bool.not_eq_true']

/-- A trial that evaluates to these batches is such a sequence of rounds. -/
theorem rounds_of_trial (key other : String) {before middle : List Label} {first second : Label} {early late : List String}
    {batches : List (List String)} {others : List String}
    (ran : (trial L before first middle second).map (outcome others first second) = some (early, batches, late, true))
    (turn : key ∈ early) (skipped : ∀ batch ∈ batches, key ∉ batch) (again : key ∈ late) (distinct : other ≠ key)
    (listed : other ∈ others) :
    ∃ start between stop, Rounds (L := L) key other start first between stop second ∧ selects start first = early ∧
      (∀ visit ∈ between, visit.2 ∈ middle) ∧
      (Served other between stop second ↔ ∃ batch ∈ batches ++ [late], other ∈ batch) := by
  obtain ⟨states, tried, shown⟩ := Option.map_eq_some_iff.mp ran
  obtain ⟨start, started, tried⟩ := Option.bind_eq_some_iff.mp tried
  obtain ⟨opened, taken, tried⟩ := Option.bind_eq_some_iff.mp tried
  obtain ⟨stop, stopped, tried⟩ := Option.bind_eq_some_iff.mp tried
  obtain ⟨final, answered, tried⟩ := Option.bind_eq_some_iff.mp tried
  cases Option.some.inj tried
  simp only [outcome, Prod.mk.injEq] at shown
  obtain ⟨rfl, rfl, rfl, waits⟩ := shown
  refine ⟨start, Run.visits step opened middle, stop, ?_, rfl, fun visit => Run.mem_visits, ?_⟩
  · refine ⟨Run.reach_of_exec started, ⟨opened, taken, Run.path_of_exec stopped⟩, turn, ?_, again,
      ⟨final, answered⟩, distinct, ?_⟩
    · exact fun visit member => skipped _ (List.mem_map_of_mem member)
    · intro visit member
      exact live_iff.mp (List.all_eq_true.mp (List.all_eq_true.mp waits visit member) other listed)
  · simp only [Served, List.mem_append, List.mem_map, List.mem_singleton, or_and_right, exists_or, exists_eq_left,
      exists_exists_and_eq_and]

namespace Sample

/-- Three releases of one profile; the digests order them second, first, third. -/
def release (resourceVersion : String) : Identity := { identity with resourceVersion := resourceVersion }

def releases : Library :=
  { library with
    identityDigest := fun i =>
      if i.resourceVersion = "2024.1" then "5d83c10e0c71b1de918991eb086ff8881c89a76738e0657ab40c7dada88933a9"
      else if i.resourceVersion = "2024.2" then "17ec2a002f5fb1f3965005db198bfa71a6cedad0b33ff893b2a4b7b90df2ed27"
      else "e5976ba5bad98b1a80eeb333df426af5a58e98bb2e8eab3b35c51c4ca26dbda8" }

def second : String := "sirius-17ec2a002f5fb1f3965005db198bfa71a6cedad0b33ff893b2a4b7b90df2ed27"

def third : String := "sirius-e5976ba5bad98b1a80eeb333df426af5a58e98bb2e8eab3b35c51c4ca26dbda8"

def jobId : String := "8c5d3a6e-27a4-4d6b-9a0f-3e1b7c2d4f58"

def observed : List Label :=
  [.openAt 4 [], .perform (.observe (release "2024.1")) [], .perform (.observe (release "2024.2")) [],
    .perform (.observe (release "2024.3")) []]

def pass (limit : Nat) : Label := .perform (.nextBatch limit) []

/-- The next release in turn, which has this key, is dispatched, completed and archived while the
cursor names it. -/
def finishes (key : String) : List Label :=
  [pass 1, .perform (.beginSend key 5) [], .perform (.acknowledge key jobId) [],
    .perform (.complete key jobId identity.destinationSha256 none) [], .perform (.archiveCompleted key jobId) []]

def shown (others : List String) (first : Label) (middle : List Label) (last : Label) :
    Option (List String × List (List String) × List String × Bool) :=
  (trial releases observed first middle last).map (outcome others first last)

end Sample

namespace Sample

/-- Two batches of two of three keys, the first of which ends in the middle of the round; and two
runs that finish the work the cursor names, one at the second key and one after the wrap, at the
first key. -/
theorem runs_shown :
    [shown [dispatchKey, third] (pass 2) [] (pass 2),
      shown [third] (pass 1) (finishes dispatchKey) (pass 1),
      shown [dispatchKey] (pass 3) (finishes second ++ [pass 1]) (pass 1)] =
    [some ([second, dispatchKey], [], [third, second], true),
      some ([second], [[dispatchKey], [], [], [], []], [second], true),
      some ([second, dispatchKey, third], [[second], [], [], [], [], [dispatchKey]], [third], true)] := by
  decide +kernel

theorem dispatch_before_third : dispatchKey < third := by decide +kernel

end Sample

/-- The archived cursor lies before both keys, so the rotation starts over with the other key. -/
theorem rotation_fair_archived : ∃ start between stop,
    Rounds (L := Sample.releases) Sample.third Sample.dispatchKey start (Sample.pass 3) between stop (Sample.pass 1) ∧
      ¬ [Sample.third, Sample.dispatchKey].Sublist (selects start (Sample.pass 3)) ∧
      Served Sample.dispatchKey between stop (Sample.pass 1) := by
  obtain ⟨-, -, shown, -⟩ := by simpa only [List.cons.injEq] using Sample.runs_shown
  obtain ⟨start, between, stop, rounds, early, -, -⟩ := rounds_of_trial Sample.third Sample.dispatchKey shown
    (by decide) (by decide) (by decide) (by decide) (by decide)
  have later : ¬ [Sample.third, Sample.dispatchKey].Sublist (selects start (Sample.pass 3)) := by
    rw [early]
    decide
  refine ⟨start, between, stop, rounds, later, (rotation_fair rounds fun visit _ => ?_).resolve_left later⟩
  rintro ⟨cursor, -, -, reached, passed, -⟩
  exact (reached.trans_lt passed).not_gt Sample.dispatch_before_third

/-- A key that had its turn after `key` in the first batch need not have one again before the
second; and archiving the cursor's own entry, at or after `key`, passes over a key altogether. -/
theorem rotation_misses :
    (∃ start between stop, Rounds (L := Sample.releases) Sample.second Sample.dispatchKey start (Sample.pass 2) between
      stop (Sample.pass 2) ∧ ¬ Served Sample.dispatchKey between stop (Sample.pass 2)) ∧
    ∃ start between stop, Rounds (L := Sample.releases) Sample.second Sample.third start (Sample.pass 1) between
      stop (Sample.pass 1) ∧ ¬ [Sample.second, Sample.third].Sublist (selects start (Sample.pass 1)) ∧
        ¬ Served Sample.third between stop (Sample.pass 1) := by
  obtain ⟨halves, finished, -⟩ := by simpa only [List.cons.injEq] using Sample.runs_shown
  constructor
  · obtain ⟨start, between, stop, rounds, -, -, served⟩ := rounds_of_trial Sample.second
      Sample.dispatchKey halves (by decide) (by decide) (by decide) (by decide) (by decide)
    refine ⟨start, between, stop, rounds, ?_⟩
    rw [served]
    decide
  · obtain ⟨start, between, stop, rounds, early, -, served⟩ := rounds_of_trial Sample.second
      Sample.third finished (by decide) (by decide) (by decide) (by decide) (by decide)
    refine ⟨start, between, stop, rounds, ?_, ?_⟩
    · rw [early]
      decide
    · rw [served]
      decide

end SiriusProxy.Outbox
