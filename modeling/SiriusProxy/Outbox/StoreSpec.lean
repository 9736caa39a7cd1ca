import SiriusProxy.Outbox.Store

namespace SiriusProxy.Outbox
open Effect
variable {L : Library} {α β : Type} {s : Store L}

/-- The same store, up to the outcomes of the file steps still to come. -/
def Near (s t : Store L) : Prop := ∃ rest, t = { s with fates := rest }

/-- A file step failed, or the process died at it; nothing else happened. -/
def Halted (s : Store L) (e : Stop) (t : Store L) : Prop :=
  (e = .crashed ∧ Near s t) ∨ (e = .error .storage ∧ Near { s with log := .stepFailed :: s.log } t)

/-- An operation that stopped: the process died or a file step failed, or it was refused. -/
def Stopped (s : Store L) (e : Stop) (t : Store L) : Prop :=
  Halted s e t ∨ ∃ reason, e = .error reason ∧ Near s t

theorem Near.refl (s : Store L) : Near s s := ⟨s.fates, rfl⟩

theorem Near.ledger {t : Store L} (near : Near s t) : t.ledger = s.ledger := by
  obtain ⟨rest, rfl⟩ := near
  rfl

theorem Near.disk {t : Store L} (near : Near s t) : t.disk = s.disk := by
  obtain ⟨rest, rfl⟩ := near
  rfl

theorem Near.log {t : Store L} (near : Near s t) : t.log = s.log := by
  obtain ⟨rest, rfl⟩ := near
  rfl

theorem Near.capacity {t : Store L} (near : Near s t) : t.capacity = s.capacity := by
  obtain ⟨rest, rfl⟩ := near
  rfl

/-- An effect that does not look at the outcomes to come. -/
def Blind (effect : Store L → Store L) : Prop := ∀ s t, Near s t → Near (effect s) (effect t)

theorem blind_id : Blind (id : Store L → Store L) := fun _ _ near => near

theorem blind_write (ledger : Ledger) : Blind (Store.write (L := L) ledger) := by
  rintro s t ⟨rest, rfl⟩
  exact ⟨rest, rfl⟩

theorem blind_archive (key : String) (entry : Entry) : Blind (Store.archive (L := L) key entry) := by
  rintro s t ⟨rest, rfl⟩
  exact ⟨rest, rfl⟩

theorem fileStep_spec {effect : Store L → Store L} (blind : Blind effect) :
    Triple (Near s) (fileStep effect) (fun _ => Near (effect s)) (Halted s) := by
  rintro t ⟨rest, rfl⟩
  cases rest with
  | nil =>
    refine ⟨?_, ?_⟩
    · rintro _ _ ⟨⟩
      exact blind _ _ ⟨[], rfl⟩
    · rintro _ _ ⟨⟩
  | cons fate rest =>
    cases fate with
    | ok =>
      refine ⟨?_, ?_⟩
      · rintro _ _ ⟨⟩
        exact blind _ _ ⟨rest, rfl⟩
      · rintro _ _ ⟨⟩
    | fail =>
      refine ⟨?_, ?_⟩
      · rintro _ _ ⟨⟩
      · rintro _ _ ⟨⟩
        exact Or.inr ⟨rfl, rest, rfl⟩
    | crash =>
      refine ⟨?_, ?_⟩
      · rintro _ _ ⟨⟩
      · rintro _ _ ⟨⟩
        exact Or.inl ⟨rfl, rest, rfl⟩

/-- Reading the store in the middle of an operation. -/
theorem triple_read {f : Store L → Op L α} {Q : α → Store L → Prop} {E : Stop → Store L → Prop}
    (body : ∀ rest, Triple (Near s) (f { s with fates := rest }) Q E) :
    Triple (Near s) (Prog.get >>= f) Q E := by
  rintro t ⟨rest, rfl⟩
  exact body rest _ ⟨rest, rfl⟩

theorem invalid_spec {Q : α → Store L → Prop} : Triple (Near s) (invalid : Op L α) Q (Stopped s) :=
  Triple.throw fun _ near => Or.inr ⟨_, rfl, near⟩

theorem Halted.stopped {e : Stop} {t : Store L} (halted : Halted s e t) : Stopped s e t := Or.inl halted

/-- A file step in an operation that may also be refused. -/
theorem fileStep_stopped {effect : Store L → Store L} (blind : Blind effect) :
    Triple (Near s) (fileStep effect) (fun _ => Near (effect s)) (Stopped s) :=
  (fileStep_spec blind).weaken (fun _ _ => id) fun _ _ => Halted.stopped

theorem touch_halted : Triple (Near s) (fileStep (L := L) id) (fun _ => Near s) (Halted s) :=
  fileStep_spec blind_id

theorem touch_stopped : Triple (Near s) (fileStep (L := L) id) (fun _ => Near s) (Stopped s) :=
  fileStep_stopped blind_id

/-- The store after a commit. -/
def Store.wrote (ledger : Ledger) (s : Store L) : Store L := { s.write ledger with ledger := ledger }

theorem commit_spec (ledger : Ledger) :
    Triple (Near s) (commit ledger) (fun _ => Near (s.wrote ledger)) (Halted s) := by
  unfold commit
  refine touch_halted.bind fun _ => ?_
  refine touch_halted.bind fun _ => ?_
  refine touch_halted.bind fun _ => ?_
  -- The rename is the last step that can fail: from there on only the memory follows.
  intro t near
  obtain ⟨done, stopped⟩ := fileStep_spec (s := s) (blind_write ledger) t near
  refine ⟨?_, ?_⟩
  · rintro a u result
    change Prog.bind _ _ t = _ at result
    unfold Prog.bind at result
    split at result
    · rename_i middle run
      obtain ⟨rest, rfl⟩ := done _ _ run
      cases result
      exact ⟨rest, rfl⟩
    · cases result
  · rintro e u result
    change Prog.bind _ _ t = _ at result
    unfold Prog.bind at result
    split at result
    · cases result
    · rename_i middle run
      cases result
      exact stopped _ _ run

theorem commit_stopped (ledger : Ledger) :
    Triple (Near s) (commit ledger) (fun _ => Near (s.wrote ledger)) (Stopped s) :=
  (commit_spec ledger).weaken (fun _ _ => id) fun _ _ => Halted.stopped

section Change
variable {key : String} {f : State → Except Error State}

/-- A transition that the entry accepts ends committed, unless a file step fails. -/
theorem change_accepted {entry : Entry} {state : State} (found : s.ledger.entries[key]? = some entry)
    (accepted : f entry.state = .ok state) :
    Triple (Near s) (change key f)
      (fun _ => Near (s.wrote (s.ledger.put key { entry with state := state }))) (Halted s) := by
  refine triple_read fun rest => ?_
  simp only [found]
  refine Triple.bind (Q := fun a t => a = state ∧ Near s t) ?_ ?_
  · rw [accepted]
    exact Triple.pure fun _ near => ⟨rfl, near⟩
  · rintro a t ⟨rfl, near⟩
    exact commit_spec _ t near

theorem change_spec :
    Triple (Near s) (change key f)
      (fun _ t => ∃ entry state, s.ledger.entries[key]? = some entry ∧ f entry.state = .ok state ∧
        Near (s.wrote (s.ledger.put key { entry with state := state })) t) (Stopped s) := by
  cases found : s.ledger.entries[key]? with
  | none =>
    refine triple_read fun rest => ?_
    simp only [found]
    exact invalid_spec
  | some entry =>
    cases accepted : f entry.state with
    | ok state =>
      exact (change_accepted found accepted).weaken
        (fun _ _ near => ⟨entry, state, rfl, accepted, near⟩) fun _ _ => Halted.stopped
    | error e =>
      refine triple_read fun rest => ?_
      simp only [found]
      refine Triple.bind (Q := fun _ _ => False) ?_ fun _ _ never => never.elim
      rw [accepted]
      exact Triple.throw fun _ near => Or.inr ⟨_, rfl, near⟩

end Change

section Guard
variable {P : Prop} [Decidable P] {rest : PUnit → Op L α} {e : Error} {Q : α → Store L → Prop}
  {E : Stop → Store L → Prop}

/-- A refusal in front of an operation, as a `do` block runs it. -/
theorem refuse_spec (refusal : ∀ t, Near s t → E (.error e) t)
    (body : ¬ P → Triple (Near s) (rest ⟨⟩) Q E) :
    Triple (Near s) (if P then Prog.throw (.error e) >>= rest else rest ⟨⟩) Q E := by
  by_cases holds : P
  · rw [if_pos holds]
    exact Triple.bind (Q := fun _ _ => False) (Triple.throw refusal) fun _ _ never => never.elim
  · rw [if_neg holds]
    exact body holds

theorem guard_spec (refusal : ∀ t, Near s t → E (.error e) t)
    (body : P → Triple (Near s) (rest ⟨⟩) Q E) :
    Triple (Near s) (if ¬ P then Prog.throw (.error e) >>= rest else rest ⟨⟩) Q E :=
  refuse_spec refusal fun holds => body (Decidable.not_not.mp holds)

end Guard

theorem Stopped.refusal {e : Error} {t : Store L} (near : Near s t) : Stopped s (.error e) t :=
  Or.inr ⟨e, rfl, near⟩

/-- An entry of the ledger moved by an accepted transition, and the move is committed. -/
def Moved (s : Store L) (key : String) (f : State → Except Error State) (t : Store L) : Prop :=
  ∃ entry state, s.ledger.entries[key]? = some entry ∧ f entry.state = .ok state ∧
    Near (s.wrote (s.ledger.put key { entry with state := state })) t

theorem change_moved (key : String) (f : State → Except Error State) :
    Triple (Near s) (change key f) (fun _ => Moved s key f) (Stopped s) := change_spec

theorem guarded_change {P : Prop} [Decidable P] (key : String) (f : State → Except Error State) :
    Triple (Near s) (if ¬ P then invalid >>= fun _ : PUnit => change key f else change key f)
      (fun _ t => P ∧ Moved s key f t) (Stopped s) := by
  refine guard_spec (fun _ => Stopped.refusal) fun holds => ?_
  exact (change_moved key f).weaken (fun _ _ done => ⟨holds, done⟩) fun _ _ => id

theorem acknowledge_spec (key id : String) :
    Triple (Near s) (acknowledge key id) (fun _ t => uuid L id ∧ Moved s key (acknowledgeState id) t)
      (Stopped s) :=
  guarded_change key (acknowledgeState id)

theorem adopt_spec (key id : String) :
    Triple (Near s) (adopt key id) (fun _ t => uuid L id ∧ Moved s key (adoptState id) t) (Stopped s) :=
  guarded_change key (adoptState id)

theorem complete_spec (key id catalogSha256 : String) (publicationId : Option String) :
    Triple (Near s) (complete key id catalogSha256 publicationId)
      (fun _ t => (digest catalogSha256 ∧ publicationId.all (uuid L)) ∧
        Moved s key (completeState (.completed id catalogSha256 publicationId) id) t) (Stopped s) :=
  guarded_change key (completeState (.completed id catalogSha256 publicationId) id)

theorem fail_spec (key code : String) :
    Triple (Near s) (fail key code) (fun _ t => validCode code ∧ Moved s key (failState code) t)
      (Stopped s) :=
  guarded_change key (failState code)

/-- What reading an archive entry found. -/
def Found (s : Store L) (key : String) : Option Entry → Prop
  | none => s.disk.completed key = none
  | some entry => ∃ bytes, s.disk.completed key = some bytes ∧ readArchived key bytes = .ok entry

theorem archived_spec (key : String) :
    Triple (Near s) (archived key) (fun r t => Found s key r ∧ Near s t) (Stopped s) := by
  unfold archived
  refine guard_spec (fun _ => Stopped.refusal) fun _ => ?_
  refine touch_stopped.bind fun _ => ?_
  refine touch_stopped.bind fun _ => ?_
  refine triple_read fun rest => ?_
  cases stored : s.disk.completed key with
  | none => exact Triple.pure fun _ near => ⟨stored, near⟩
  | some bytes =>
    refine touch_stopped.bind fun _ => ?_
    cases read : readArchived key bytes with
    | ok entry => exact Triple.pure fun _ near => ⟨⟨bytes, stored, read⟩, near⟩
    | error e => exact Triple.throw fun _ => Stopped.refusal

/-- The receipt an archive command may write: a completed entry of the ledger. -/
def Archivable (s : Store L) (key : String) (entry : Entry) : Prop :=
  s.ledger.entries[key]? = some entry ∧ ∃ jobId catalogSha256 publicationId,
    entry.state = .completed jobId catalogSha256 publicationId

/-- Stopped before the receipt was created, or after. -/
def ArchiveStopped (s : Store L) (key : String) (e : Stop) (t : Store L) : Prop :=
  Stopped s e t ∨ ∃ entry, Archivable s key entry ∧ s.disk.completed key = none ∧
    Stopped (s.archive key entry) e t

/-- The store of a finished archive command: the receipt exists and the ledger forgot the entry. -/
def Archived (s : Store L) (key : String) (t : Store L) : Prop :=
  (s.ledger.entries[key]? = none ∧ Near s t) ∨
    ∃ entry, Archivable s key entry ∧
      (Found s key (some entry) ∧ Near (s.wrote (s.ledger.remove key)) t ∨
        s.disk.completed key = none ∧ Near ((s.archive key entry).wrote (s.ledger.remove key)) t)

theorem writeArchive_present (key : String) (entry old : Entry) :
    Triple (Near s) (writeArchive key entry (some old)) (fun _ => Near s) (Stopped s) := by
  unfold writeArchive
  refine touch_stopped.bind fun _ => ?_
  refine touch_stopped.bind fun _ => ?_
  exact touch_stopped

theorem writeArchive_absent (key : String) (entry : Entry) :
    Triple (Near s) (writeArchive key entry none) (fun _ => Near (s.archive key entry))
      (fun e t => Stopped s e t ∨ Stopped (s.archive key entry) e t) := by
  have before {m : Op L PUnit} {Q : PUnit → Store L → Prop} (triple : Triple (Near s) m Q (Stopped s)) :
      Triple (Near s) m Q (fun e t => Stopped s e t ∨ Stopped (s.archive key entry) e t) :=
    triple.weaken (fun _ _ => id) fun _ _ => Or.inl
  have after {m : Op L PUnit} {Q : PUnit → Store L → Prop}
      (triple : Triple (Near (s.archive key entry)) m Q (Stopped (s.archive key entry))) :
      Triple (Near (s.archive key entry)) m Q
        (fun e t => Stopped s e t ∨ Stopped (s.archive key entry) e t) :=
    triple.weaken (fun _ _ => id) fun _ _ => Or.inr
  unfold writeArchive
  refine (before touch_stopped).bind fun _ => ?_
  refine (before touch_stopped).bind fun _ => ?_
  refine (before touch_stopped).bind fun _ => ?_
  refine (before touch_stopped).bind fun _ => ?_
  refine (before touch_stopped).bind fun _ => ?_
  refine (before (fileStep_stopped (blind_archive key entry))).bind fun _ => ?_
  refine (after touch_stopped).bind fun _ => ?_
  refine (after touch_stopped).bind fun _ => ?_
  exact after touch_stopped

theorem getElem?_eq_none {ledger : Ledger} {key : String} (absent : ¬ ledger.entries.contains key = true) :
    ledger.entries[key]? = none := by
  rw [Std.TreeMap.contains_eq_isSome_getElem?] at absent
  exact Option.not_isSome_iff_eq_none.mp absent

theorem contains_of_getElem? {ledger : Ledger} {key : String} {entry : Entry}
    (held : ledger.entries[key]? = some entry) : ledger.entries.contains key = true := by
  rw [Std.TreeMap.contains_eq_isSome_getElem?, held]
  rfl

theorem archiveCompleted_spec (key expectedJobId : String) :
    Triple (Near s) (archiveCompleted key expectedJobId) (fun _ => Archived s key)
      (ArchiveStopped s key) := by
  have early : ∀ e t, Stopped s e t → ArchiveStopped s key e t := fun _ _ => Or.inl
  unfold archiveCompleted
  refine guard_spec (fun _ near => Or.inl (Stopped.refusal near)) fun _ => ?_
  refine Triple.bind ((archived_spec key).weaken (fun _ _ => id) early) fun present => ?_
  refine Triple.assume fun found => ?_
  refine triple_read fun rest => ?_
  cases chosen : s.ledger.entries[key]?.or present with
  | none => exact Triple.throw fun _ near => Or.inl (Stopped.refusal near)
  | some entry =>
    dsimp only
    split
    case h_2 =>
      exact Triple.bind (Q := fun _ _ => False) (Triple.throw fun _ near => Or.inl (Stopped.refusal near))
        fun _ _ never => never.elim
    case h_1 jobId catalogSha256 publicationId completed =>
      refine refuse_spec (fun _ near => Or.inl (Stopped.refusal near)) fun _ => ?_
      refine refuse_spec (fun _ near => Or.inl (Stopped.refusal near)) fun same => ?_
      cases held : s.ledger.entries[key]? with
      | none =>
        have absent : ¬ s.ledger.entries.contains key = true := by
          rw [Std.TreeMap.contains_eq_isSome_getElem?, held]
          exact Bool.false_ne_true
        rw [if_neg absent]
        obtain rfl : present = some entry := by simpa only [held, Option.none_or] using chosen
        refine ((writeArchive_present key entry entry).weaken (fun _ _ => id) early).bind
          fun _ => ?_
        exact Triple.pure fun _ near => Or.inl ⟨held, near⟩
      | some kept =>
        obtain rfl : kept = entry := by simpa only [held, Option.some_or, Option.some.injEq] using chosen
        rw [if_pos (contains_of_getElem? held)]
        have archivable : Archivable s key kept := ⟨held, _, _, _, completed⟩
        cases present with
        | none =>
          refine ((writeArchive_absent key kept).weaken (fun _ _ => id) ?_).bind fun _ => ?_
          · rintro e t (stopped | stopped)
            · exact Or.inl stopped
            · exact Or.inr ⟨kept, archivable, found, stopped⟩
          · refine ((commit_stopped _).weaken (fun _ _ => id) ?_).bind fun _ => ?_
            · exact fun e t stopped => Or.inr ⟨kept, archivable, found, stopped⟩
            · exact Triple.pure fun _ near => Or.inr ⟨kept, archivable, Or.inr ⟨found, near⟩⟩
        | some old =>
          obtain rfl : old = kept := by simpa using same
          refine ((writeArchive_present key old old).weaken (fun _ _ => id) early).bind
            fun _ => ?_
          refine ((commit_stopped _).weaken (fun _ _ => id) early).bind fun _ => ?_
          exact Triple.pure fun _ near => Or.inr ⟨old, archivable, Or.inl ⟨found, near⟩⟩

/-- The store of a successful observation: the identity was known, or it is now pending. -/
def Observed (s : Store L) (identity : Identity) (key : String) (t : Store L) : Prop :=
  identity.key L = .ok key ∧
    (s.ledger.entries[key]?.isSome ∧ Near { s with log := .observed identity :: s.log } t ∨
      (∃ entry, s.ledger.entries[key]? = none ∧ Found s key (some entry) ∧
        Near { s with log := .observed identity :: s.log } t) ∨
      s.ledger.entries[key]? = none ∧ s.disk.completed key = none ∧
        s.ledger.entries.size < s.capacity ∧
        ∃ u, u = s.wrote (s.ledger.put key { identity := identity, state := .pending }) ∧
          Near { u with log := .observed identity :: u.log } t)

/-- The history entry that ends a successful observation; it cannot fail. -/
theorem note_spec {E : Stop → Store L → Prop} (s : Store L) (identity : Identity) (key : String) :
    Triple (Near s) (Prog.modify (fun s : Store L => { s with log := .observed identity :: s.log }) >>=
        fun _ => (pure key : Op L String))
      (fun k t => k = key ∧ Near { s with log := .observed identity :: s.log } t) E := by
  refine Triple.bind (Q := fun _ => Near { s with log := .observed identity :: s.log }) ?_ fun _ => ?_
  · refine Triple.modify ?_
    rintro t ⟨rest, rfl⟩
    exact ⟨rest, rfl⟩
  · exact Triple.pure fun _ near => ⟨rfl, near⟩

theorem observe_spec (identity : Identity) :
    Triple (Near s) (observe identity) (fun key => Observed s identity key) (Stopped s) := by
  unfold observe
  cases named : identity.key L with
  | error e =>
    exact Triple.bind (Q := fun _ _ => False) (Triple.throw fun _ => Stopped.refusal)
      fun _ _ never => never.elim
  | ok key =>
    refine Triple.bind (Q := fun k t => k = key ∧ Near s t) (Triple.pure fun _ near => ⟨rfl, near⟩) ?_
    intro k
    refine Triple.assume fun same => ?_
    subst same
    refine triple_read fun rest => ?_
    by_cases held : s.ledger.entries.contains k = true
    · rw [if_pos held]
      refine (note_spec s identity k).weaken ?_ fun _ _ => id
      rintro _ t ⟨rfl, near⟩
      rw [Std.TreeMap.contains_eq_isSome_getElem?] at held
      exact ⟨named, Or.inl ⟨held, near⟩⟩
    · rw [if_neg held]
      have absent := getElem?_eq_none held
      refine (archived_spec k).bind fun present => ?_
      refine Triple.assume fun found => ?_
      cases present with
      | some entry =>
        refine (note_spec s identity k).weaken ?_ fun _ _ => id
        rintro _ t ⟨rfl, near⟩
        exact ⟨named, Or.inr (Or.inl ⟨entry, absent, found, near⟩)⟩
      | none =>
        refine refuse_spec (fun _ => Stopped.refusal) fun room => ?_
        refine (commit_stopped _).bind fun _ => ?_
        refine (note_spec (s.wrote _) identity k).weaken ?_ fun _ _ => id
        rintro _ t ⟨rfl, near⟩
        exact ⟨named, Or.inr (Or.inr ⟨absent, found, Nat.lt_of_not_le room, _, rfl, near⟩)⟩

/-- The batch a pass works on: it is chosen, then the cursor is committed. -/
def Selected (s : Store L) (limit : Nat) (batch : List (String × Entry)) (t : Store L) : Prop :=
  batch = (rotation s.ledger).take limit ∧
    (batch = [] ∧ Near s t ∨ ∃ key entry, batch.getLast? = some (key, entry) ∧
      Near (s.wrote { s.ledger with reconciliationCursor := some key }) t)

/-- A batch of a permitted size is always chosen, unless a file step fails. -/
theorem nextBatch_halted {limit : Nat} (allowed : 1 ≤ limit ∧ limit ≤ 256) :
    Triple (Near s) (nextBatch limit) (Selected s limit) (Halted s) := by
  unfold nextBatch
  rw [if_neg (not_not_intro allowed)]
  refine triple_read fun rest => ?_
  dsimp only
  split
  · rename_i key entry last
    refine (commit_spec _).bind fun _ => ?_
    exact Triple.pure fun _ near => ⟨rfl, Or.inr ⟨key, entry, last, near⟩⟩
  · rename_i empty
    exact Triple.pure fun _ near => ⟨rfl, Or.inl ⟨List.getLast?_eq_none_iff.mp empty, near⟩⟩

theorem nextBatch_spec (limit : Nat) :
    Triple (Near s) (nextBatch limit) (Selected s limit) (Stopped s) := by
  by_cases allowed : 1 ≤ limit ∧ limit ≤ 256
  · exact (nextBatch_halted allowed).weaken (fun _ _ => id) fun _ _ => Halted.stopped
  · unfold nextBatch
    rw [if_pos allowed]
    exact Triple.bind (Q := fun _ _ => False) (Triple.throw fun _ => Stopped.refusal)
      fun _ _ never => never.elim

/-- The store of a successful `open`. -/
def Opened (s : Store L) (capacity : Nat) (t : Store L) : Prop :=
  (1 ≤ capacity ∧ capacity ≤ 100000) ∧ ∃ ledger, readLedger s.disk = .ok ledger ∧
    accepts L capacity ledger ∧ Near { s.wrote ledger with capacity := capacity } t

theorem reopen_spec (ledger : Ledger) (capacity : Nat) :
    Triple (Near s) (commit ledger >>= fun _ => Prog.modify fun s : Store L => { s with capacity := capacity })
      (fun _ => Near { s.wrote ledger with capacity := capacity }) (Halted s) := by
  refine (commit_spec ledger).bind fun _ => ?_
  refine Triple.modify ?_
  rintro t ⟨rest, rfl⟩
  exact ⟨rest, rfl⟩

/-- An accepted ledger opens, unless a file step fails. -/
theorem openOutbox_accepted {capacity : Nat} {ledger : Ledger} (allowed : 1 ≤ capacity ∧ capacity ≤ 100000)
    (read : readLedger s.disk = .ok ledger) (accepted : accepts L capacity ledger) :
    Triple (Near s) (openOutbox capacity) (fun _ => Opened s capacity) (Halted s) := by
  unfold openOutbox
  rw [if_neg (not_not_intro allowed)]
  refine touch_halted.bind fun _ => ?_
  refine touch_halted.bind fun _ => ?_
  refine touch_halted.bind fun _ => ?_
  refine triple_read fun rest => ?_
  dsimp only
  rw [read]
  refine Triple.bind (Q := fun value t => value = ledger ∧ Near s t)
    (Triple.pure fun _ near => ⟨rfl, near⟩) fun value => ?_
  refine Triple.assume fun same => ?_
  subst same
  rw [if_neg (not_not_intro accepted)]
  exact (reopen_spec value capacity).weaken
    (fun _ _ near => ⟨allowed, value, read, accepted, near⟩) fun _ _ => id

theorem openOutbox_spec (capacity : Nat) :
    Triple (Near s) (openOutbox capacity) (fun _ => Opened s capacity) (Stopped s) := by
  unfold openOutbox
  refine guard_spec (fun _ => Stopped.refusal) fun allowed => ?_
  refine touch_stopped.bind fun _ => ?_
  refine touch_stopped.bind fun _ => ?_
  refine touch_stopped.bind fun _ => ?_
  refine triple_read fun rest => ?_
  dsimp only
  cases read : readLedger s.disk with
  | error e =>
    exact Triple.bind (Q := fun _ _ => False) (Triple.throw fun _ => Stopped.refusal)
      fun _ _ never => never.elim
  | ok ledger =>
    refine Triple.bind (Q := fun value t => value = ledger ∧ Near s t)
      (Triple.pure fun _ near => ⟨rfl, near⟩) fun value => ?_
    refine Triple.assume fun same => ?_
    subst same
    refine guard_spec (fun _ => Stopped.refusal) fun accepted => ?_
    exact (reopen_spec value capacity).weaken
      (fun _ _ near => ⟨allowed, value, read, accepted, near⟩) fun _ _ => Halted.stopped

end SiriusProxy.Outbox
