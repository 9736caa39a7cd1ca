import SiriusProxy.Lib.Run
import SiriusProxy.Outbox.Ledger

namespace SiriusProxy.Outbox
open Effect
variable {L : Library} {s t : Store L} {e : Stop} {key : String}

/-- The identity has an entry under its key, in the ledger or as a receipt. -/
def Kept (s : Store L) (identity : Identity) : Prop :=
  ∃ key entry, identity.key L = .ok key ∧ entry.identity.key L = .ok key ∧
    (s.ledger.entries[key]? = some entry ∨
      ∃ bytes, s.disk.completed key = some bytes ∧ L.decodeEntry bytes = some entry)

/-- The invariant of an outbox directory once it has been opened. -/
structure Saved (s : Store L) : Prop where
  file : s.disk.outbox = some (L.encodeLedger s.ledger)
  allowed : 1 ≤ s.capacity ∧ s.capacity ≤ 100000
  represents : Represents L s.capacity s.ledger
  receipts : ∀ key bytes, s.disk.completed key = some bytes →
    ∃ entry, L.decodeEntry bytes = some entry ∧ entry.identity.key L = .ok key
  kept : ∀ identity, .observed identity ∈ s.log → Kept s identity

/-- A directory no process has opened yet. -/
structure Fresh (s : Store L) : Prop where
  file : s.disk.outbox = none
  receipts : ∀ key, s.disk.completed key = none
  silent : ∀ identity, .observed identity ∉ s.log

theorem Near.saved (near : Near s t) (saved : Saved s) : Saved t := by
  obtain ⟨rest, rfl⟩ := near
  exact ⟨saved.file, saved.allowed, saved.represents, saved.receipts, saved.kept⟩

theorem Near.fresh (near : Near s t) (fresh : Fresh s) : Fresh t := by
  obtain ⟨rest, rfl⟩ := near
  exact ⟨fresh.file, fresh.receipts, fresh.silent⟩

/-- A file step that failed is noted, and nothing else has changed. -/
theorem Saved.noteFailure (saved : Saved s) : Saved { s with log := .stepFailed :: s.log } where
  file := saved.file
  allowed := saved.allowed
  represents := saved.represents
  receipts := saved.receipts
  kept := by
    intro identity member
    rcases List.mem_cons.mp member with same | member
    · cases same
    · exact saved.kept identity member

/-- A submission is noted, and nothing else has changed. -/
theorem Saved.posted (saved : Saved s) {status : Option Nat} :
    Saved { s with log := .posted key status :: s.log } where
  file := saved.file
  allowed := saved.allowed
  represents := saved.represents
  receipts := saved.receipts
  kept := by
    intro identity member
    rcases List.mem_cons.mp member with same | member
    · cases same
    · exact saved.kept identity member

/-- The same of a directory that was not opened yet. -/
theorem Fresh.noteFailure (fresh : Fresh s) : Fresh { s with log := .stepFailed :: s.log } where
  file := fresh.file
  receipts := fresh.receipts
  silent := by
    intro identity member
    rcases List.mem_cons.mp member with same | member
    · cases same
    · exact fresh.silent identity member

/-- A stopped operation leaves the memory and the files as they were. -/
theorem Stopped.frame (stopped : Stopped s e t) :
    t.ledger = s.ledger ∧ t.disk = s.disk ∧ t.capacity = s.capacity := by
  obtain (⟨-, near⟩ | ⟨-, near⟩) | ⟨reason, -, near⟩ := stopped
  · exact ⟨near.ledger, near.disk, near.capacity⟩
  · exact ⟨near.ledger, near.disk, near.capacity⟩
  · exact ⟨near.ledger, near.disk, near.capacity⟩

theorem Stopped.saved (stopped : Stopped s e t) (saved : Saved s) : Saved t := by
  obtain (⟨-, near⟩ | ⟨-, near⟩) | ⟨reason, -, near⟩ := stopped
  · exact near.saved saved
  · exact near.saved saved.noteFailure
  · exact near.saved saved

theorem Stopped.fresh (stopped : Stopped s e t) (fresh : Fresh s) : Fresh t := by
  obtain (⟨-, near⟩ | ⟨-, near⟩) | ⟨reason, -, near⟩ := stopped
  · exact near.fresh fresh
  · exact near.fresh fresh.noteFailure
  · exact near.fresh fresh

/-- A commit keeps the invariant when its ledger does and forgets no observed identity. -/
theorem Saved.wrote {ledger : Ledger} (saved : Saved s) (represents : Represents L s.capacity ledger)
    (kept : ∀ identity, Kept s identity → Kept (s.wrote ledger) identity) : Saved (s.wrote ledger) where
  file := rfl
  allowed := saved.allowed
  represents := represents
  receipts := saved.receipts
  kept := by
    intro identity member
    rcases List.mem_cons.mp member with same | member
    · cases same
    · exact kept identity (saved.kept identity member)

/-- Writing an entry under its own key keeps every identity. -/
theorem Kept.put {identity : Identity} {entry : Entry} (kept : Kept s identity)
    (named : entry.identity.key L = .ok key) : Kept (s.wrote (s.ledger.put key entry)) identity := by
  obtain ⟨k, old, known, stored, place⟩ := kept
  by_cases same : key = k
  · refine ⟨k, entry, known, same ▸ named, Or.inl ?_⟩
    change (s.ledger.put key entry).entries[k]? = some entry
    rw [getElem?_put, if_pos same]
  · refine ⟨k, old, known, stored, place.imp_left fun held => ?_⟩
    change (s.ledger.put key entry).entries[k]? = some old
    rw [getElem?_put, if_neg same]
    exact held

theorem Saved.put {entry : Entry} (saved : Saved s) (named : entry.identity.key L = .ok key)
    (valid : validState L entry.state)
    (room : s.ledger.entries.contains key ∨ s.ledger.entries.size < s.capacity) :
    Saved (s.wrote (s.ledger.put key entry)) :=
  saved.wrote (saved.represents.put named valid room) fun _ kept => kept.put named

/-- Every accepted transition keeps the invariant if it keeps states valid. -/
theorem Moved.saved {f : State → Except Error State} (moved : Moved s key f t) (saved : Saved s)
    (valid : ∀ state next, validState L state → f state = .ok next → validState L next) : Saved t := by
  obtain ⟨entry, state, held, accepted, near⟩ := moved
  refine near.saved (saved.put ?_ ?_ (Or.inl (contains_of_getElem? held)))
  · exact saved.represents.keyed key entry held
  · exact valid _ _ (saved.represents.valid key entry held) accepted

/-- An observation may be noted once its entry is kept. -/
theorem Saved.note (saved : Saved s) {identity : Identity} (kept : Kept s identity) :
    Saved { s with log := .observed identity :: s.log } where
  file := saved.file
  allowed := saved.allowed
  represents := saved.represents
  receipts := saved.receipts
  kept := by
    intro other member
    rcases List.mem_cons.mp member with same | member
    · cases same
      exact kept
    · exact saved.kept other member

/-- Observing ends with the identity in the ledger, where it was or is now, or among the receipts; each of these
keeps it. -/
theorem Observed.saved {identity : Identity} (observed : Observed s identity key t) (saved : Saved s) :
    Saved t := by
  obtain ⟨named, ⟨held, near⟩ | ⟨entry, -, ⟨bytes, stored, -⟩, near⟩ | ⟨absent, -, room, u, rfl, near⟩⟩ := observed
  · obtain ⟨entry, held⟩ := Option.isSome_iff_exists.mp held
    refine near.saved (saved.note ⟨key, entry, named, ?_, Or.inl held⟩)
    exact saved.represents.keyed key entry held
  · obtain ⟨receipt, decoded, owned⟩ := saved.receipts key bytes stored
    exact near.saved (saved.note ⟨key, receipt, named, owned, Or.inr ⟨bytes, stored, decoded⟩⟩)
  · have pending : Saved (s.wrote (s.ledger.put key { identity := identity, state := .pending })) :=
      saved.put named rfl (Or.inr room)
    have held : (s.ledger.put key { identity := identity, state := .pending }).entries[key]? =
        some { identity := identity, state := .pending } := by
      rw [getElem?_put, if_pos rfl]
    exact near.saved (pending.note ⟨key, { identity := identity, state := .pending }, named, named, Or.inl held⟩)

/-- Creating a missing receipt of a ledger entry keeps the invariant. -/
theorem Saved.archive {entry : Entry} (saved : Saved s) (archivable : Archivable s key entry) :
    Saved (s.archive key entry) where
  file := saved.file
  allowed := saved.allowed
  represents := saved.represents
  receipts := by
    intro k bytes stored
    change (if k = key then _ else _) = _ at stored
    split_ifs at stored with same
    · cases stored
      exact ⟨entry, L.decodeEntry_encodeEntry entry, same ▸ saved.represents.keyed key entry archivable.1⟩
    · exact saved.receipts k bytes stored
  kept := by
    intro identity member
    rcases List.mem_cons.mp member with same | member
    · cases same
    obtain ⟨k, old, known, stored, place⟩ := saved.kept identity member
    by_cases same : k = key
    · subst same
      refine ⟨k, entry, known, saved.represents.keyed k entry archivable.1, Or.inl archivable.1⟩
    · refine ⟨k, old, known, stored, place.imp_right ?_⟩
      rintro ⟨bytes, receipt, decoded⟩
      refine ⟨bytes, ?_, decoded⟩
      change (if k = key then _ else _) = _
      rw [if_neg same]
      exact receipt

/-- The ledger may forget a key whose receipt is on disk. -/
theorem Saved.forget (saved : Saved s) (bytes : L.Bytes) (receipt : s.disk.completed key = some bytes) :
    Saved (s.wrote (s.ledger.remove key)) := by
  refine saved.wrote saved.represents.remove ?_
  rintro identity ⟨k, old, known, stored, place⟩
  by_cases same : key = k
  · subst same
    obtain ⟨entry, decoded, owned⟩ := saved.receipts key bytes receipt
    exact ⟨key, entry, known, owned, Or.inr ⟨bytes, receipt, decoded⟩⟩
  · refine ⟨k, old, known, stored, place.imp_left fun held => ?_⟩
    change (s.ledger.remove key).entries[k]? = some old
    rw [getElem?_remove, if_neg same]
    exact held

theorem Archived.saved (archived : Archived s key t) (saved : Saved s) : Saved t := by
  obtain ⟨-, near⟩ | ⟨entry, archivable, ⟨⟨bytes, receipt, -⟩, near⟩ | ⟨-, near⟩⟩ := archived
  · exact near.saved saved
  · exact near.saved (saved.forget bytes receipt)
  · refine near.saved ((saved.archive archivable).forget (L.encodeEntry entry) ?_)
    exact if_pos rfl

theorem ArchiveStopped.saved (stopped : ArchiveStopped s key e t) (saved : Saved s) : Saved t := by
  obtain stopped | ⟨entry, archivable, -, stopped⟩ := stopped
  · exact stopped.saved saved
  · exact stopped.saved (saved.archive archivable)

theorem mem_rotation {ledger : Ledger} {item : String × Entry} (member : item ∈ rotation ledger) :
    ledger.entries[item.1]? = some item.2 := by
  unfold rotation at member
  rw [List.mem_filter, List.mem_append, List.mem_filter, List.mem_filter] at member
  obtain ⟨⟨listed, -⟩ | ⟨listed, -⟩, -⟩ := member
  · exact mem_toList.mp listed
  · exact mem_toList.mp listed

/-- Selecting a batch commits the cursor alone. -/
theorem Selected.saved {limit : Nat} {batch : List (String × Entry)} (selected : Selected s limit batch t)
    (saved : Saved s) : Saved t := by
  obtain ⟨chosen, ⟨-, near⟩ | ⟨key, entry, last, near⟩⟩ := selected
  · exact near.saved saved
  · have member : (key, entry) ∈ rotation s.ledger :=
      List.mem_of_mem_take (chosen ▸ List.mem_of_getLast? last)
    refine near.saved (saved.wrote ?_ fun _ kept => kept)
    exact saved.represents.point (contains_of_getElem? (mem_rotation member))

theorem Saved.read (saved : Saved s) : readLedger s.disk = .ok s.ledger := by
  unfold readLedger
  rw [saved.file]
  dsimp only
  rw [L.decodeLedger_encodeLedger]

/-- An opened directory has the ledger of its file, or a new one where there was none. -/
theorem Opened.saved {capacity : Nat} (opened : Opened s capacity t) (before : Fresh s ∨ Saved s) :
    Saved t := by
  obtain ⟨allowed, ledger, read, accepted, near⟩ := opened
  have represents := accepts_iff.mp accepted
  refine near.saved ⟨rfl, allowed, represents, ?_, ?_⟩
  · rcases before with fresh | saved
    · intro key bytes stored
      cases (fresh.receipts key).symm.trans stored
    · exact saved.receipts
  · intro identity member
    rcases List.mem_cons.mp member with same | noted
    · cases same
    rcases before with fresh | saved
    · exact absurd noted (fresh.silent identity)
    · obtain rfl : ledger = s.ledger := Except.ok.inj (read.symm.trans saved.read)
      exact saved.kept identity noted

/-- One call of an outbox operation other than `open`. -/
inductive Operation where
  | observe (identity : Identity)
  | beginSend (key : String) (now : Instant)
  | refused (key : String)
  | acknowledge (key id : String)
  | adopt (key id : String)
  | complete (key id catalogSha256 : String) (publicationId : Option String)
  | fail (key code : String)
  | nextBatch (limit : Nat)
  | archiveCompleted (key expectedJobId : String)

def Operation.run : Operation → Op L PUnit
  | .observe identity => do let _ ← Outbox.observe identity
  | .beginSend key now => Outbox.beginSend key now
  | .refused key => Outbox.refused key
  | .acknowledge key id => Outbox.acknowledge key id
  | .adopt key id => Outbox.adopt key id
  | .complete key id catalogSha256 publicationId => Outbox.complete key id catalogSha256 publicationId
  | .fail key code => Outbox.fail key code
  | .nextBatch limit => do let _ ← Outbox.nextBatch limit
  | .archiveCompleted key expectedJobId => do let _ ← Outbox.archiveCompleted key expectedJobId

/-- What an operation that did not finish leaves behind. -/
def Left (s t : Store L) : Prop :=
  Saved t ∧ t.ledger = s.ledger ∧ t.disk.outbox = s.disk.outbox

theorem Stopped.left (stopped : Stopped s e t) (saved : Saved s) : Left s t := by
  obtain ⟨ledger, disk, -⟩ := stopped.frame
  exact ⟨stopped.saved saved, ledger, disk ▸ rfl⟩

/-- An archive that stops has written its receipt at most, and the entry is still in the ledger. -/
theorem ArchiveStopped.left (stopped : ArchiveStopped s key e t) (saved : Saved s) : Left s t := by
  refine ⟨stopped.saved saved, ?_⟩
  obtain stopped | ⟨entry, archivable, -, stopped⟩ := stopped
  · obtain ⟨ledger, disk, -⟩ := stopped.frame
    exact ⟨ledger, disk ▸ rfl⟩
  · obtain ⟨ledger, disk, -⟩ := stopped.frame
    exact ⟨ledger, disk ▸ rfl⟩

theorem drop_value {α : Type} {m : Op L α} {P : Store L → Prop} {Q : Store L → Prop} {E : Stop → Store L → Prop}
    (triple : Triple P m (fun _ => Q) E) :
    Triple P (m >>= fun _ => (pure ⟨⟩ : Op L PUnit)) (fun _ => Q) E :=
  triple.bind fun _ => Triple.pure fun _ => id

/-- Every operation keeps the invariant, and one that stops early changes neither the memory
nor the ledger file. -/
theorem Operation.run_spec (op : Operation) (saved : Saved s) :
    Triple (Near s) (op.run (L := L)) (fun _ => Saved) (fun _ => Left s) := by
  have stop : ∀ e t, Stopped s e t → Left s t := fun _ _ stopped => stopped.left saved
  cases op with
  | observe identity =>
    exact drop_value ((observe_spec identity).weaken (fun _ _ done => done.saved saved) stop)
  | beginSend key now =>
    refine (change_moved key (beginSendState now)).weaken (fun _ _ done => done.saved saved ?_) stop
    intro state next _ step
    obtain ⟨⟨since, rfl⟩, -⟩ := beginSendState_target step
    rfl
  | refused key =>
    refine (change_moved key refusedState).weaken (fun _ _ done => done.saved saved ?_) stop
    intro state next _ step
    obtain ⟨rfl, -⟩ := refusedState_target step
    rfl
  | acknowledge key id =>
    refine (acknowledge_spec key id).weaken ?_ stop
    rintro _ t ⟨canonical, done⟩
    refine done.saved saved fun state next _ step => ?_
    obtain ⟨rfl, -⟩ := acknowledgeState_target step
    exact canonical
  | adopt key id =>
    refine (adopt_spec key id).weaken ?_ stop
    rintro _ t ⟨canonical, done⟩
    refine done.saved saved fun state next _ step => ?_
    obtain ⟨rfl, -⟩ := adoptState_target step
    exact canonical
  | complete key id catalogSha256 publicationId =>
    refine (complete_spec key id catalogSha256 publicationId).weaken ?_ stop
    rintro _ t ⟨⟨hashed, published⟩, done⟩
    exact done.saved saved fun state next => completeState_valid hashed published
  | fail key code =>
    refine (fail_spec key code).weaken ?_ stop
    rintro _ t ⟨named, done⟩
    exact done.saved saved fun state next => failState_valid named
  | nextBatch limit =>
    exact drop_value ((nextBatch_spec limit).weaken (fun _ _ done => done.saved saved) stop)
  | archiveCompleted key expectedJobId =>
    exact drop_value ((archiveCompleted_spec key expectedJobId).weaken
      (fun _ _ done => done.saved saved) fun _ _ stopped => stopped.left saved)

/-- The state directory and whether a process owns it. -/
structure Node (L : Library) where
  store : Store L := {}
  alive : Bool := false

inductive Label where
  | openAt (capacity : Nat) (fates : List Fate)
  | perform (op : Operation) (fates : List Fate)
  | crash

/-- A second `open` finds the owner lock taken and changes nothing. -/
def step (n : Node L) : Label → Option (Node L)
  | .openAt capacity fates =>
    if n.alive then some n
    else match openOutbox capacity { n.store with fates := fates } with
      | (.ok _, t) => some { store := t, alive := true }
      | (.error _, t) => some { store := t, alive := false }
  | .perform op fates =>
    if n.alive then match op.run { n.store with fates := fates } with
      | (.error .crashed, t) => some { store := t, alive := false }
      | (_, t) => some { store := t, alive := true }
    else none
  | .crash => some { n with alive := false }

def Node.Inv (n : Node L) : Prop := if n.alive then Saved n.store else Fresh n.store ∨ Saved n.store

theorem Near.with_fates (s : Store L) (fates : List Fate) : Near s { s with fates := fates } := ⟨fates, rfl⟩

/-- What every step of the process keeps: an operation that returns, one that fails or is cut off at a file step,
the start and the crash. -/
theorem step_inv {n m : Node L} {l : Label} (inv : n.Inv) (taken : step n l = some m) : m.Inv := by
  cases l with
  | crash =>
    cases taken
    unfold Node.Inv at inv ⊢
    split_ifs at inv
    · exact Or.inr inv
    · exact inv
  | openAt capacity fates =>
    simp only [step] at taken
    split_ifs at taken with alive
    · cases taken
      exact inv
    unfold Node.Inv at inv
    rw [if_neg alive] at inv
    have spec := openOutbox_spec (s := n.store) capacity _ (Near.with_fates n.store fates)
    split at taken
    · rename_i t run
      cases taken
      exact (spec.1 _ _ run).saved inv
    · rename_i e t run
      cases taken
      exact inv.imp (spec.2 _ _ run).fresh (spec.2 _ _ run).saved
  | perform op fates =>
    simp only [step] at taken
    split_ifs at taken with alive
    unfold Node.Inv at inv
    rw [if_pos alive] at inv
    have spec := op.run_spec inv _ (Near.with_fates n.store fates)
    split at taken
    · rename_i t run
      cases taken
      exact Or.inr (spec.2 _ _ run).1
    · rename_i r t notCrashed run
      cases taken
      cases r with
      | ok value => exact spec.1 _ _ run
      | error e => exact (spec.2 _ _ run).1

theorem fresh_initial : Fresh ({} : Store L) := ⟨rfl, fun _ => rfl, fun _ => List.not_mem_nil⟩

theorem reach_inv {n : Node L} (reach : Run.Reach step (fun _ _ => True) {} n) : n.Inv :=
  reach.invariant (Or.inl fresh_initial) fun _ _ _ inv _ taken => step_inv inv taken

/-- Two identities with one SHA-256. -/
def Collide (L : Library) (i j : Identity) : Prop := i ≠ j ∧ L.identityDigest i = L.identityDigest j

/-- The files have an entry of this identity under its key. -/
def Recorded (disk : Disk L) (identity : Identity) : Prop :=
  ∃ key entry, identity.key L = .ok key ∧ (entry.identity = identity ∨ Collide L entry.identity identity) ∧
    ((∃ ledger, disk.outbox.bind L.decodeLedger = some ledger ∧ ledger.entries[key]? = some entry) ∨
      (disk.completed key).bind L.decodeEntry = some entry)

/-- Keys are digests of identities, so two identities with one key are the same or a collision. -/
theorem same_or_collide {i j : Identity} (left : i.key L = .ok key) (right : j.key L = .ok key) :
    i = j ∨ Collide L i j := by
  by_cases same : i = j
  · exact Or.inl same
  · refine Or.inr ⟨same, ?_⟩
    unfold Identity.key at left right
    split_ifs at left right
    have texts := (Except.ok.inj left).trans (Except.ok.inj right).symm
    exact (String.append_right_inj _).mp texts

theorem Saved.decoded (saved : Saved s) : s.disk.outbox.bind L.decodeLedger = some s.ledger := by
  rw [saved.file]
  exact L.decodeLedger_encodeLedger s.ledger

/-- What was observed is on disk: the ledger's file is that of the ledger, and the receipts are those of the
entries they name. -/
theorem Saved.recorded (saved : Saved s) {identity : Identity} (member : .observed identity ∈ s.log) :
    Recorded s.disk identity := by
  obtain ⟨key, entry, named, owned, place⟩ := saved.kept identity member
  refine ⟨key, entry, named, same_or_collide owned named, ?_⟩
  rcases place with held | ⟨bytes, receipt, decoded⟩
  · exact Or.inl ⟨s.ledger, saved.decoded, held⟩
  · rw [receipt]
    exact Or.inr decoded

/-- What the directory and its owner guarantee between two calls, and of the next call. A crash
at a file step is itself a state of the run, so this covers every instant of a call too. -/
structure Guarantees (n : Node L) : Prop where
  synced : n.alive → n.store.disk.outbox.bind L.decodeLedger = some n.store.ledger
  succeeded : n.alive → ∀ (op : Operation) fates value t,
    op.run { n.store with fates := fates } = (.ok value, t) → t.disk.outbox.bind L.decodeLedger = some t.ledger
  failed : n.alive → ∀ (op : Operation) fates e t, op.run { n.store with fates := fates } = (.error e, t) →
    t.ledger = n.store.ledger ∧ t.disk.outbox = n.store.disk.outbox
  unopened : ∀ capacity fates e t, openOutbox capacity { n.store with fates := fates } = (.error e, t) →
    t.ledger = n.store.ledger ∧ t.disk.outbox = n.store.disk.outbox
  represented : ∀ ledger, n.store.disk.outbox.bind L.decodeLedger = some ledger →
    Represents L n.store.capacity ledger
  reopens : n.store.disk.outbox.isSome → ∀ fates e t,
    openOutbox n.store.capacity { n.store with fates := fates } = (.error e, t) → Halted n.store e t
  recorded : ∀ identity, .observed identity ∈ n.store.log → Recorded n.store.disk identity

theorem Saved.reopens (saved : Saved s) {fates : List Fate}
    (run : openOutbox s.capacity { s with fates := fates } = (.error e, t)) : Halted s e t := by
  have accepted := accepts_iff.mpr saved.represents
  exact (openOutbox_accepted saved.allowed saved.read accepted _ (Near.with_fates s fates)).2 _ _ run

theorem openOutbox_failed {capacity : Nat} {fates : List Fate}
    (run : openOutbox capacity { s with fates := fates } = (.error e, t)) :
    t.ledger = s.ledger ∧ t.disk.outbox = s.disk.outbox := by
  obtain ⟨ledger, disk, -⟩ := ((openOutbox_spec capacity _ (Near.with_fates s fates)).2 _ _ run).frame
  exact ⟨ledger, disk ▸ rfl⟩

/-- The invariant gives all the guarantees of the directory, those of the next call by the specifications of
the operations. -/
theorem Saved.guarantees {n : Node L} (saved : Saved n.store) : Guarantees n where
  synced := fun _ => saved.decoded
  succeeded := fun _ op fates _ _ run =>
    ((op.run_spec saved _ (Near.with_fates n.store fates)).1 _ _ run).decoded
  failed := fun _ op fates _ _ run => ((op.run_spec saved _ (Near.with_fates n.store fates)).2 _ _ run).2
  unopened := fun _ _ _ _ run => openOutbox_failed run
  represented := by
    intro ledger read
    cases Option.some.inj (saved.decoded.symm.trans read)
    exact saved.represents
  reopens := fun _ _ _ _ run => saved.reopens run
  recorded := fun _ member => saved.recorded member

/-- In every run of opens, operations and crashes, with any outcome of every file step. -/
theorem outbox_durable {n : Node L} (reach : Run.Reach step (fun _ _ => True) {} n) : Guarantees n := by
  have inv := reach_inv reach
  unfold Node.Inv at inv
  split_ifs at inv with alive
  · exact inv.guarantees
  rcases inv with fresh | saved
  · exact {
      synced := fun lives => absurd lives alive
      succeeded := fun lives => absurd lives alive
      failed := fun lives => absurd lives alive
      unopened := fun _ _ _ _ run => openOutbox_failed run
      represented := fun ledger read => by
        rw [fresh.file] at read
        cases read
      reopens := fun written => by
        rw [fresh.file] at written
        cases written
      recorded := fun identity member => absurd member (fresh.silent identity) }
  · exact saved.guarantees

namespace Sample

/-- The files of the sample hold the values themselves. -/
inductive Bytes where
  | ledger (value : Ledger)
  | entry (value : Entry)
  | job (value : Jobs.Job)

def hyphenate (hex : List Char) : String :=
  String.ofList (hex.take 8 ++ '-' :: (hex.drop 8).take 4 ++ '-' :: (hex.drop 12).take 4 ++
    '-' :: (hex.drop 16).take 4 ++ '-' :: hex.drop 20)

/-- Thirty-two hexadecimal digits of either case. -/
def simpleUuid (v : List Char) : Option String :=
  let lower := v.map Char.toLower
  if v.length = 32 ∧ lower.all isLowerHex then some (hyphenate lower) else none

def hyphenatedUuid (v : List Char) : Option String :=
  if v.length = 36 ∧ [8, 13, 18, 23].all fun i => v[i]? == some '-' then
    simpleUuid (v.take 8 ++ (v.drop 9).take 4 ++ (v.drop 14).take 4 ++ (v.drop 19).take 4 ++ v.drop 24)
  else none

/-- The four spellings of `Uuid::parse_str`: simple, hyphenated, braced and URN. -/
def uuidText (text : String) : Option String :=
  let v := text.toList
  if v.length = 38 ∧ v.head? = some '\x7b' ∧ v.getLast? = some '\x7d' then hyphenatedUuid (v.drop 1).dropLast
  else if v.length = 45 ∧ startsWith text "urn:uuid:" then hyphenatedUuid (v.drop 9)
  else if v.length = 36 then hyphenatedUuid v
  else simpleUuid v

def library : Library where
  Bytes := Bytes
  size := fun _ => 512
  identityDigest := fun _ => "5d83c10e0c71b1de918991eb086ff8881c89a76738e0657ab40c7dada88933a9"
  keyDigest := fun _ => "257be3ae66250824dae116aa7aa6567f9dd17dbc1149e22e02f691f8c4726cb1"
  uuidText := uuidText
  encodeLedger := .ledger
  decodeLedger
    | .ledger value => some value
    | _ => none
  encodeEntry := .entry
  decodeEntry
    | .entry value => some value
    | _ => none
  parseJob
    | [.job value] => some value
    | _ => none
  decodeLedger_encodeLedger := fun _ => rfl
  decodeEntry_encodeEntry := fun _ => rfl

def identity : Identity where
  destinationSha256 := "817feb7cf836e251fd8b512cb583e88bd3054e0f10c00adc913291a1519709d9"
  request := { region := .hk, profile := "full", operation := .update }
  profileRevision := "1"
  environment := "production"
  platform := "iOS"
  resourceVersion := "2024.1"
  platformHash := "abc123"
  requireFullCatalog := true
  requireFullExport := false
  requirePublication := false

def dispatchKey : String := "sirius-5d83c10e0c71b1de918991eb086ff8881c89a76738e0657ab40c7dada88933a9"

/-- The process observes an identity, fails to persist an attempt, dies and starts again. -/
def restart : List Label :=
  [.openAt 4 [], .perform (.observe identity) [], .perform (.beginSend dispatchKey 5) [.ok, .ok, .ok, .fail],
    .crash, .openAt 4 []]

end Sample

theorem outbox_durable_restart :
    ∃ n : Node Sample.library, n.alive = true ∧ n.store.ledger.entries.contains Sample.dispatchKey = true ∧
      Guarantees n := by
  have runs : (Run.exec step ({} : Node Sample.library) Sample.restart).map
      (fun n => (n.alive, n.store.ledger.entries.contains Sample.dispatchKey)) = some (true, true) := by
    decide +kernel
  obtain ⟨n, run, shape⟩ := Option.map_eq_some_iff.mp runs
  obtain ⟨alive, held⟩ := Prod.mk.inj shape
  exact ⟨n, alive, held, outbox_durable (Run.reach_of_exec run)⟩

end SiriusProxy.Outbox
