import SiriusProxy.Lib.Rows
import SiriusProxy.Lib.Run
import SiriusProxy.Master.History
import SiriusProxy.Master.Sync

namespace SiriusProxy.Master

variable {B J : Type}

/-- `master_database::Error`. -/
inductive MirrorError where
  | notFound
  | invalidRequest
  | config
  | secret
  | snapshot
  | database
  | timeout
  | integrity
  deriving DecidableEq, Repr

structure PlanEntryV1 where
  snapshot : String
  version : String
  contentSha256 : String
  publishedAt : Option Instant
  fileCount : Nat
  totalSize : Nat
  deriving DecidableEq, Repr

/-- Its retention boundary is left out of its text where it is false. -/
structure PlanV1 where
  schemaVersion : Nat
  scope : Scope
  head : String
  entries : List PlanEntryV1
  hasMore : Bool
  nextBefore : Option String
  legacyBoundary : Bool
  retentionBoundary : Bool
  deriving DecidableEq, Repr

/-- `serde_json::Value` with its equality, the texts of plans, and the database: what a JSONB column
gives back of a value, `none` where it refuses it, and the order of TEXT. -/
structure Engine (B J : Type) where
  value : B → Option J
  same : J → J → Bool
  ofPlan : PlanV1 → B
  jsonb : J → Option J
  collate : String → String → Bool
  collate_total : ∀ a b, collate a b = true ∨ collate b a = true
  collate_trans : ∀ a b c, collate a b = true → collate b c = true → collate a c = true

structure Table (B J : Type) where
  file : File
  bytes : B
  value : J

structure Snapshot (B J : Type) where
  manifest : PublishedManifest
  manifestBytes : B
  tables : List (Table B J)

section Verified
variable (lib : Serde B) (engine : Engine B J)

abbrev Verify (B α : Type) := Reads.Prog (Root B) (Option (Node B)) MirrorError α

/-- The loop of `verified_snapshot`. -/
def verifiedTables (scope : Scope) (snapshot : String) : List File → List (Table B J) → Verify B (List (Table B J))
  | [], tables => pure tables
  | f :: rest, tables =>
    match stripSuffix f.name.toList ['.', 'j', 's', 'o', 'n'] with
    | none => .throw .snapshot
    | some stem => do
      let data ← ((tableRead lib scope.region snapshot (String.ofList stem) f.sha256 true).zoom fun root =>
        root.snapshots snapshot).mapError fun _ => .snapshot
      if lib.length data.bytes != f.size then .throw .snapshot
      else match engine.value data.bytes with
        | none => .throw .snapshot
        | some value => verifiedTables scope snapshot rest (tables ++ [⟨f, data.bytes, value⟩])

def verifiedSnapshot (scope : Scope) (id : Option String) : Verify B (Snapshot B J) := do
  let document ← (manifest lib id scope).mapError fun _ => .snapshot
  match lib.published document.bytes with
  | none => .throw .snapshot
  | some manifest => match manifest.validate lib scope with
    | .error _ => .throw .snapshot
    | .ok () => do
      let tables ← verifiedTables lib engine scope manifest.snapshot manifest.files []
      pure { manifest, manifestBytes := document.bytes, tables }

/-- A snapshot that `verified_snapshot` accepted, whatever happened to the directory meanwhile. -/
structure Verified (scope : Scope) where
  snapshot : Snapshot B J
  accepted : ∃ id states, (Reads.run states 0 (verifiedSnapshot lib engine scope id)).1 = .ok snapshot

end Verified

structure DocumentRow (B J : Type) where
  name : String
  sha256 : String
  bytes : B
  document : J

/-- A row of `sirius_master_snapshots` and, as they go with it, its rows of `sirius_master_documents`. -/
structure SnapshotRow (B J : Type) where
  contentHash : String
  manifest : B
  touched : Nat
  documents : List (DocumentRow B J)

structure Event where
  id : Nat
  scope : Scope
  contentHash : String
  publishedAt : Instant
  version : String
  resourceVersion : Option String
  fileCount : Nat
  totalSize : Nat
  deriving DecidableEq, Repr

structure Migration where
  sourceHash : String
  head : String
  publications : Nat
  legacyBoundary : Bool
  deriving DecidableEq, Repr

/-- The tables by scope; `sequence` is the last number of the history that was handed out. -/
structure Database (B J : Type) where
  snapshots : Scope → List (SnapshotRow B J) := fun _ => []
  history : List Event := []
  current : Scope → Option String := fun _ => none
  migrations : Scope → Option Migration := fun _ => none
  sequence : Nat := 0

structure StoreReceipt where
  contentSha256 : String
  tables : Nat
  bytes : Nat
  changed : Bool
  deriving DecidableEq, Repr

section Store
variable [DecidableEq B] (lib : Serde B) (engine : Engine B J)

def sameTable (row : DocumentRow B J) (table : Table B J) : Bool :=
  row.name == table.file.name && row.sha256 == table.file.sha256 && decide (row.bytes = table.bytes) &&
    engine.same row.document table.value

/-- `ORDER BY name`. -/
def orderRows (rows : List (DocumentRow B J)) : List (DocumentRow B J) :=
  rows.insertionSort fun a b => engine.collate a.name b.name

/-- The checks of a snapshot that is already stored. -/
def checkSaved (snapshot : Snapshot B J) (row : SnapshotRow B J) : Except MirrorError PublishedManifest :=
  match lib.published row.manifest with
  | none => .error .integrity
  | some saved => match saved.validate lib snapshot.manifest.scope with
    | .error _ => .error .integrity
    | .ok () =>
      if saved.contentSha256 != snapshot.manifest.contentSha256 then .error .integrity
      else if row.documents.length != snapshot.tables.length then .error .integrity
      else if ((orderRows engine row.documents).zip snapshot.tables).all fun p => sameTable engine p.1 p.2 then .ok saved
      else .error .integrity

/-- The loop that inserts the documents of a new snapshot. -/
def insertDocuments : List (Table B J) → List (DocumentRow B J) → Except MirrorError (List (DocumentRow B J))
  | [], rows => .ok rows
  | table :: rest, rows =>
    if rows.any fun row => row.name == table.file.name then .error .database
    else match engine.jsonb table.value with
      | none => .error .database
      | some document =>
        insertDocuments rest (rows ++ [{ name := table.file.name, sha256 := table.file.sha256, bytes := table.bytes, document }])

/-- `store_snapshot` up to its first history statement. -/
def writeRows (snapshot : Snapshot B J) (rows : List (SnapshotRow B J)) : Except MirrorError (List (SnapshotRow B J)) :=
  let hash := snapshot.manifest.contentSha256
  match Rows.find SnapshotRow.contentHash hash rows with
  | some row => match checkSaved lib engine snapshot row with
    | .error e => .error e
    | .ok saved =>
      if snapshot.manifest.resourceVersion.isSome && saved.resourceVersion != snapshot.manifest.resourceVersion then
        .ok (Rows.update SnapshotRow.contentHash hash (fun row => { row with manifest := snapshot.manifestBytes }) rows)
      else .ok rows
  | none => match insertDocuments engine snapshot.tables [] with
    | .error e => .error e
    | .ok documents => .ok (rows ++ [{ contentHash := hash, manifest := snapshot.manifestBytes, touched := 0, documents }])

/-- `ORDER BY touched DESC, content_hash LIMIT keep`. -/
def newestRows (keep : Nat) (rows : List (SnapshotRow B J)) : List String :=
  ((rows.insertionSort fun a b => b.touched < a.touched ∨ a.touched = b.touched ∧ engine.collate a.contentHash b.contentHash).take
    keep).map SnapshotRow.contentHash

/-- What the `DELETE` of the retention leaves. -/
def retain (keep : Nat) (hash : String) (rows : List (SnapshotRow B J)) : List (SnapshotRow B J) :=
  rows.filter fun row => row.contentHash == hash || (newestRows engine keep rows).contains row.contentHash

def Snapshot.bytes (snapshot : Snapshot B J) : Nat := (snapshot.tables.map fun table => table.file.size).sum

def Snapshot.event (snapshot : Snapshot B J) (id : Nat) (publishedAt : Instant) : Event where
  id := id
  scope := snapshot.manifest.scope
  contentHash := snapshot.manifest.contentSha256
  publishedAt := publishedAt
  version := snapshot.manifest.version
  resourceVersion := snapshot.manifest.resourceVersion
  fileCount := snapshot.tables.length
  totalSize := snapshot.bytes

/-- The statements for a changed content: the event, `touched` and `sirius_master_current`. -/
def recordEvent (snapshot : Snapshot B J) (publishedAt : Instant) (rows : List (SnapshotRow B J)) (db : Database B J) :
    Database B J :=
  let scope := snapshot.manifest.scope
  let hash := snapshot.manifest.contentSha256
  let sequence := db.sequence + 1
  { db with
    sequence
    history := db.history ++ [snapshot.event sequence publishedAt]
    snapshots := Function.update db.snapshots scope (Rows.update SnapshotRow.contentHash hash (fun row => { row with touched := sequence }) rows)
    current := Function.update db.current scope (some hash) }

/-- The retention; the foreign key of `sirius_master_current` keeps the row it names. -/
def prune (keep : Nat) (scope : Scope) (hash : String) (db : Database B J) : Except MirrorError (Database B J) :=
  let kept := retain engine keep hash (db.snapshots scope)
  if (db.current scope).all fun named => kept.any fun row => row.contentHash == named then
    .ok { db with snapshots := Function.update db.snapshots scope kept }
  else .error .database

/-- `store_snapshot`; a publication of a migration has its own time where its file has one. -/
def storeSnapshot (keep : Nat) (now : Instant) (snapshot : Snapshot B J) (publication : Option (Option Instant))
    (db : Database B J) : Except MirrorError (StoreReceipt × Database B J) :=
  let scope := snapshot.manifest.scope
  let hash := snapshot.manifest.contentSha256
  match writeRows lib engine snapshot (db.snapshots scope) with
  | .error e => .error e
  | .ok rows =>
    let changed := publication.isSome || db.current scope != some hash
    if changed && decide (2 ^ 63 ≤ snapshot.bytes) then .error .snapshot
    else
      let db := if changed then recordEvent snapshot (publication.join.getD now) rows db
        else { db with snapshots := Function.update db.snapshots scope rows }
      match prune engine keep scope hash db with
      | .error e => .error e
      | .ok db => .ok ({ contentSha256 := hash, tables := snapshot.tables.length, bytes := snapshot.bytes, changed }, db)

/-- The database after a committed `publish_snapshot`. -/
def publishSnapshot (keep : Nat) (now : Instant) (snapshot : Snapshot B J) (db : Database B J) :
    Except MirrorError (StoreReceipt × Database B J) :=
  storeSnapshot lib engine keep now snapshot none db

structure MigrationReceipt where
  head : String
  sourceSha256 : String
  publications : Nat
  legacyBoundary : Bool
  retentionBoundary : Bool
  changed : Bool
  deriving DecidableEq, Repr

def planV1 (history : History) : PlanV1 where
  schemaVersion := history.schemaVersion
  scope := history.scope
  head := history.head
  entries := history.entries.map fun e =>
    { snapshot := e.snapshot, version := e.version, contentSha256 := e.contentSha256, publishedAt := e.publishedAt,
      fileCount := e.fileCount, totalSize := e.totalSize }
  hasMore := history.hasMore
  nextBefore := history.nextBefore
  legacyBoundary := history.legacyBoundary
  retentionBoundary := history.retentionBoundary

def migrationPlanDigest (history : History) : String := digest lib (engine.ofPlan (planV1 history))

/-- The loop of `migrate_transaction`, from the oldest publication on; `read` is what `verified_snapshot`
returns for an entry. -/
def migrateEntries (keep : Nat) (now : Instant) (read : HistoryEntry → Option (Snapshot B J)) :
    List HistoryEntry → Database B J → Except MirrorError (Database B J)
  | [], db => .ok db
  | entry :: rest, db =>
    match read entry with
    | none => .error .snapshot
    | some snapshot =>
      if snapshot.manifest.contentSha256 != entry.contentSha256 then .error .snapshot
      else match storeSnapshot lib engine keep now snapshot (some entry.publishedAt) db with
        | .error e => .error e
        | .ok (_, db) => migrateEntries keep now read rest db

def Database.occupied (db : Database B J) (scope : Scope) : Bool :=
  !(db.snapshots scope).isEmpty || (db.current scope).isSome || db.history.any fun event => event.scope == scope

def migrateTransaction (keep : Nat) (now : Instant) (history : History) (sourceSha256 : String)
    (read : HistoryEntry → Option (Snapshot B J)) (db : Database B J) : Except MirrorError (MigrationReceipt × Database B J) :=
  let scope := history.scope
  let receipt : MigrationReceipt :=
    { head := history.head, sourceSha256, publications := history.entries.length, legacyBoundary := history.legacyBoundary,
      retentionBoundary := history.retentionBoundary, changed := false }
  let record : Migration :=
    { sourceHash := sourceSha256, head := history.head, publications := history.entries.length,
      legacyBoundary := history.legacyBoundary }
  match db.migrations scope with
  | some saved => if saved != record then .error .integrity else .ok (receipt, db)
  | none =>
    if db.occupied scope then .error .integrity
    else match migrateEntries lib engine keep now read history.entries.reverse db with
      | .error e => .error e
      | .ok db =>
        .ok ({ receipt with changed := true }, { db with migrations := Function.update db.migrations scope (some record) })

end Store

section Spec
variable {lib : Serde B} {engine : Engine B J}

/-- What a table was read for. -/
structure Table.Intact (lib : Serde B) (engine : Engine B J) (table : Table B J) : Prop where
  named : ∃ stem, table.file.name = stem ++ ".json" ∧ safeComponent stem = true
  size : lib.length table.bytes = table.file.size
  hash : digest lib table.bytes = table.file.sha256
  json : lib.validJson table.bytes = true
  value : engine.value table.bytes = some table.value

structure Snapshot.Intact (lib : Serde B) (engine : Engine B J) (scope : Scope) (snapshot : Snapshot B J) : Prop where
  read : lib.published snapshot.manifestBytes = some snapshot.manifest
  passed : snapshot.manifest.validate lib scope = .ok ()
  files : snapshot.tables.map Table.file = snapshot.manifest.files
  tables : ∀ table ∈ snapshot.tables, table.Intact lib engine

/-- Whatever the disk holds, a table that is read has the expected hash and is valid JSON, since these are checked
before it is returned. -/
theorem ensures_tableRead (region : Region) (snapshot table expectedHash : String) :
    Reads.Ensures (fun document => safeComponent table = true ∧ digest lib document.bytes = expectedHash ∧
      lib.validJson document.bytes = true) (tableRead lib region snapshot table expectedHash true) := by
  unfold tableRead
  split
  · trivial
  · rename_i named
    refine (Reads.Ensures.any _).bind fun _ _ => (Reads.Ensures.any _).bind fun p _ => ?_
    split
    · trivial
    · split
      · trivial
      · refine (Reads.Ensures.any _).bind fun bytes _ => ?_
        split
        · trivial
        · rename_i hash
          refine (Reads.Ensures.any _).bind fun indexed _ => ?_
          split
          · trivial
          · rename_i json
            have safe : safeComponent table = true ∧ hashValid expectedHash = true := by simpa using named
            exact ⟨safe.1, by simpa using hash, by simpa using json⟩

/-- What is cut off is the suffix and what is left stands before it. -/
theorem stripSuffix_some {text suffix stem : List Char} (cut : stripSuffix text suffix = some stem) : text = stem ++ suffix := by
  unfold stripSuffix at cut
  split at cut
  · rename_i ends
    obtain ⟨front, rfl⟩ := List.isSuffixOf_iff_suffix.mp ends
    rw [List.length_append, Nat.add_sub_cancel, List.take_left] at cut
    rw [Option.some.inj cut]
  · cases cut

/-- The tables are read one after the other, each with its checks. By induction on the files. -/
theorem ensures_verifiedTables {scope : Scope} {snapshot : String} {files : List File} {tables : List (Table B J)}
    (before : ∀ table ∈ tables, table.Intact lib engine) :
    Reads.Ensures (fun all => all.map Table.file = tables.map Table.file ++ files ∧ ∀ table ∈ all, table.Intact lib engine)
      (verifiedTables lib engine scope snapshot files tables) := by
  induction files generalizing tables with
  | nil => exact ⟨(List.append_nil _).symm, before⟩
  | cons f rest ih =>
    unfold verifiedTables
    split
    · trivial
    · rename_i stem cut
      refine (((ensures_tableRead _ _ _ _).zoom _).mapError _).bind fun data read => ?_
      obtain ⟨safe, hash, json⟩ := read
      split
      · trivial
      · rename_i size
        split
        · trivial
        · rename_i value parsed
          have named : f.name = String.ofList stem ++ ".json" := by
            apply String.toList_inj.mp
            rw [String.toList_append, String.toList_ofList]
            exact stripSuffix_some cut
          have new : Table.Intact lib engine ⟨f, data.bytes, value⟩ :=
            ⟨⟨_, named, safe⟩, by simpa using size, hash, json, parsed⟩
          have all : ∀ table ∈ tables ++ [⟨f, data.bytes, value⟩], table.Intact lib engine := by
            intro table member
            rcases List.mem_append.mp member with old | last
            · exact before table old
            · exact List.mem_singleton.mp last ▸ new
          simpa using ih all

/-- A snapshot that was verified has passed all checks of its reading, whatever the disk held. -/
theorem Verified.intact {scope : Scope} (verified : Verified lib engine scope) : verified.snapshot.Intact lib engine scope := by
  obtain ⟨id, states, accepted⟩ := verified.accepted
  refine Reads.Ensures.run (P := Snapshot.Intact lib engine scope) ?_ accepted
  refine (Reads.Ensures.any _).bind fun document _ => ?_
  split
  · trivial
  · rename_i manifest parsed
    split
    · trivial
    · rename_i passed
      refine (ensures_verifiedTables (by simp)).bind fun tables read => ?_
      exact ⟨parsed, passed, read.1, read.2⟩

theorem Snapshot.Intact.scope {scope : Scope} {snapshot : Snapshot B J} (intact : snapshot.Intact lib engine scope) :
    snapshot.manifest.scope = scope :=
  (PublishedManifest.valid_of_validate intact.passed).own

/-- A document row and the table it was written for. -/
structure Inserted (engine : Engine B J) (table : Table B J) (row : DocumentRow B J) : Prop where
  name : row.name = table.file.name
  sha256 : row.sha256 = table.file.sha256
  bytes : row.bytes = table.bytes
  document : engine.jsonb table.value = some row.document

/-- The inserts append one row for each table, in order; a name that is there already is refused, so the names
stay distinct. -/
theorem insertDocuments_ok {tables : List (Table B J)} {before rows : List (DocumentRow B J)}
    (done : insertDocuments engine tables before = .ok rows) (distinct : (before.map DocumentRow.name).Nodup) :
    ∃ new, rows = before ++ new ∧ List.Forall₂ (Inserted engine) tables new ∧ (rows.map DocumentRow.name).Nodup := by
  induction tables generalizing before with
  | nil =>
    cases done
    exact ⟨[], by simp, .nil, distinct⟩
  | cons table rest ih =>
    unfold insertDocuments at done
    split at done
    · cases done
    · rename_i unused
      split at done
      · cases done
      · rename_i document stored
        have apart : ∀ row ∈ before, row.name ≠ table.file.name := by simpa using unused
        obtain ⟨new, whole, each, names⟩ := ih done (by
          rw [List.map_append, List.nodup_append]
          refine ⟨distinct, by simp, ?_⟩
          simpa using apart)
        exact ⟨_, by rw [whole, List.append_assoc, List.singleton_append], .cons ⟨rfl, rfl, rfl, stored⟩ each, names⟩

theorem retain_sublist (engine : Engine B J) (keep : Nat) (hash : String) (rows : List (SnapshotRow B J)) :
    (retain engine keep hash rows).Sublist rows := List.filter_sublist

theorem retain_has {keep : Nat} {hash : String} {rows : List (SnapshotRow B J)}
    (has : ∃ row ∈ rows, row.contentHash = hash) : ∃ row ∈ retain engine keep hash rows, row.contentHash = hash := by
  obtain ⟨row, inside, same⟩ := has
  exact ⟨row, List.mem_filter.mpr ⟨inside, by simp [same]⟩, same⟩

/-- A retention that succeeds has removed rows of the scope and nothing else, and the current content is
still there. -/
theorem prune_ok {keep : Nat} {scope : Scope} {hash : String} {db after : Database B J}
    (done : prune engine keep scope hash db = .ok after) :
    after = { db with snapshots := Function.update db.snapshots scope (retain engine keep hash (db.snapshots scope)) } ∧
      ∀ named, db.current scope = some named → ∃ row ∈ retain engine keep hash (db.snapshots scope), row.contentHash = named := by
  simp only [prune] at done
  split at done
  · rename_i held
    cases done
    refine ⟨rfl, fun named current => ?_⟩
    rw [current] at held
    simpa using held
  · cases done

/-- With distinct names and storable values every insert succeeds. -/
theorem insertDocuments_runs {tables : List (Table B J)} {before : List (DocumentRow B J)}
    (stored : ∀ table ∈ tables, (engine.jsonb table.value).isSome = true)
    (distinct : (before.map DocumentRow.name ++ tables.map fun table => table.file.name).Nodup) :
    ∃ rows, insertDocuments engine tables before = .ok rows := by
  induction tables generalizing before with
  | nil => exact ⟨before, rfl⟩
  | cons table rest ih =>
    obtain ⟨first, others⟩ := List.forall_mem_cons.mp stored
    obtain ⟨document, kept⟩ := Option.isSome_iff_exists.mp first
    have free : before.any (fun row => row.name == table.file.name) = false := by
      refine List.any_eq_false.mpr fun row inside => ?_
      have apart := (List.nodup_append.mp distinct).2.2 _ (List.mem_map_of_mem inside) _ List.mem_cons_self
      simpa using apart
    obtain ⟨rows, inserted⟩ := @ih (before ++ [⟨table.file.name, table.file.sha256, table.bytes, document⟩]) others
      (by simpa using distinct)
    refine ⟨rows, ?_⟩
    simp only [insertDocuments, free, Bool.false_eq_true, if_false, kept]
    exact inserted

/-- With the current content among the rows the retention has no reason to refuse. -/
theorem prune_runs (engine : Engine B J) (keep : Nat) {scope : Scope} {hash : String} {db : Database B J}
    (has : ∃ row ∈ db.snapshots scope, row.contentHash = hash) (current : db.current scope = some hash) :
    ∃ after, prune engine keep scope hash db = .ok after := by
  obtain ⟨row, inside, same⟩ := retain_has has
  have held : (retain engine keep hash (db.snapshots scope)).any (fun row => row.contentHash == hash) = true :=
    List.any_eq_true.mpr ⟨row, inside, by simp [same]⟩
  simp only [prune, current, Option.all_some]
  rw [if_pos held]
  exact ⟨_, rfl⟩

theorem Snapshot.Intact.bytes_le {scope : Scope} {snapshot : Snapshot B J} (intact : snapshot.Intact lib engine scope) :
    snapshot.bytes ≤ maxTotal := by
  have total := (PublishedManifest.valid_of_validate intact.passed).inventory.total
  rw [← intact.files, List.map_map] at total
  exact total

variable [DecidableEq B]

/-- A snapshot that was stored before, or a new row. -/
theorem writeRows_ok {snapshot : Snapshot B J} {before rows : List (SnapshotRow B J)}
    (done : writeRows lib engine snapshot before = .ok rows) :
    (∃ row saved, Rows.find SnapshotRow.contentHash snapshot.manifest.contentSha256 before = some row ∧
      checkSaved lib engine snapshot row = .ok saved ∧
      (snapshot.manifest.resourceVersion.isSome = true ∧ rows = Rows.update SnapshotRow.contentHash snapshot.manifest.contentSha256
          (fun row => { row with manifest := snapshot.manifestBytes }) before ∨
        (snapshot.manifest.resourceVersion = none ∨ saved.resourceVersion = snapshot.manifest.resourceVersion) ∧
          rows = before)) ∨
    Rows.find SnapshotRow.contentHash snapshot.manifest.contentSha256 before = none ∧
      ∃ documents, insertDocuments engine snapshot.tables [] = .ok documents ∧
        rows = before ++ [⟨snapshot.manifest.contentSha256, snapshot.manifestBytes, 0, documents⟩] := by
  simp only [writeRows] at done
  split at done
  · rename_i row found
    split at done
    · cases done
    · rename_i saved checked
      refine Or.inl ⟨row, saved, found, checked, ?_⟩
      split at done
      · rename_i newer
        cases done
        exact Or.inl ⟨(Bool.and_eq_true_iff.mp newer).1, rfl⟩
      · rename_i older
        cases done
        refine Or.inr ⟨?_, rfl⟩
        have kept : snapshot.manifest.resourceVersion.isSome = true →
            saved.resourceVersion = snapshot.manifest.resourceVersion := by simpa using older
        cases known : snapshot.manifest.resourceVersion with
        | none => exact Or.inl rfl
        | some version => exact Or.inr ((kept (by rw [known]; rfl)).trans known)
  · rename_i missing
    split at done
    · cases done
    · rename_i documents inserted
      cases done
      exact Or.inr ⟨missing, documents, inserted, rfl⟩

/-- What a committed `store_snapshot` has done to the rows of its scope and to everything else. -/
theorem storeSnapshot_ok {keep : Nat} {now : Instant} {snapshot : Snapshot B J} {publication : Option (Option Instant)}
    {db after : Database B J} {receipt : StoreReceipt}
    (done : storeSnapshot lib engine keep now snapshot publication db = .ok (receipt, after)) :
    ∃ rows, writeRows lib engine snapshot (db.snapshots snapshot.manifest.scope) = .ok rows ∧
      ((publication = none ∧ db.current snapshot.manifest.scope = some snapshot.manifest.contentSha256 ∧
          after = { db with
            snapshots := Function.update db.snapshots snapshot.manifest.scope
              (retain engine keep snapshot.manifest.contentSha256 rows) }) ∨
        (publication.isSome = true ∨ db.current snapshot.manifest.scope ≠ some snapshot.manifest.contentSha256) ∧
          after = { recordEvent snapshot (publication.join.getD now) rows db with
            snapshots := Function.update db.snapshots snapshot.manifest.scope
              (retain engine keep snapshot.manifest.contentSha256
                (Rows.update SnapshotRow.contentHash snapshot.manifest.contentSha256 (fun row => { row with touched := db.sequence + 1 }) rows)) }) := by
  simp only [storeSnapshot] at done
  split at done
  · cases done
  · rename_i rows written
    refine ⟨rows, written, ?_⟩
    split at done
    · cases done
    · split at done
      · cases done
      · rename_i pruned
        cases done
        have ended := (prune_ok pruned).1
        by_cases changed : (publication.isSome || db.current snapshot.manifest.scope != some snapshot.manifest.contentSha256) = true
        · rw [if_pos changed] at ended
          refine Or.inr ⟨by simpa using changed, ?_⟩
          rw [ended]
          simp only [recordEvent, Function.update_self, Function.update_idem]
        · rw [if_neg changed] at ended
          refine Or.inl ?_
          have still : publication = none ∧ db.current snapshot.manifest.scope = some snapshot.manifest.contentSha256 := by
            simpa using changed
          refine ⟨still.1, still.2, ?_⟩
          rw [ended]
          simp only [Function.update_self, Function.update_idem]

/-- Either way the content has a row afterwards: it was found or it is appended. -/
theorem writeRows_has {snapshot : Snapshot B J} {before rows : List (SnapshotRow B J)}
    (done : writeRows lib engine snapshot before = .ok rows) :
    ∃ row ∈ rows, row.contentHash = snapshot.manifest.contentSha256 := by
  rcases writeRows_ok done with ⟨row, saved, found, -, ⟨-, rfl⟩ | ⟨-, rfl⟩⟩ | ⟨-, documents, -, rfl⟩
  · obtain ⟨inside, same⟩ := Rows.find_some found
    exact ⟨_, List.mem_map_of_mem inside, by rw [if_pos same]; exact same⟩
  · obtain ⟨inside, same⟩ := Rows.find_some found
    exact ⟨row, inside, same⟩
  · exact ⟨_, List.mem_append_right _ (List.mem_singleton_self _), rfl⟩

/-- The stored content is there afterwards. -/
theorem storeSnapshot_has {keep : Nat} {now : Instant} {snapshot : Snapshot B J} {publication : Option (Option Instant)}
    {db after : Database B J} {receipt : StoreReceipt}
    (done : storeSnapshot lib engine keep now snapshot publication db = .ok (receipt, after)) :
    ∃ row ∈ after.snapshots snapshot.manifest.scope, row.contentHash = snapshot.manifest.contentSha256 := by
  obtain ⟨rows, written, ⟨-, -, rfl⟩ | ⟨-, rfl⟩⟩ := storeSnapshot_ok done
  · simp only [Function.update_self]
    exact retain_has (writeRows_has written)
  · simp only [Function.update_self]
    obtain ⟨row, inside, same⟩ := writeRows_has written
    exact retain_has ⟨_, List.mem_map_of_mem inside, by rw [if_pos same]; exact same⟩

/-- A new snapshot is written where the database takes its values. -/
theorem writeRows_new {scope : Scope} {snapshot : Snapshot B J} {before : List (SnapshotRow B J)}
    (intact : snapshot.Intact lib engine scope) (distinct : (snapshot.manifest.files.map File.name).Nodup)
    (missing : Rows.find SnapshotRow.contentHash snapshot.manifest.contentSha256 before = none)
    (stored : ∀ table ∈ snapshot.tables, (engine.jsonb table.value).isSome = true) :
    ∃ rows, writeRows lib engine snapshot before = .ok rows := by
  rw [← intact.files, List.map_map] at distinct
  obtain ⟨documents, inserted⟩ := insertDocuments_runs stored (show (([] : List (DocumentRow B J)).map DocumentRow.name ++
    snapshot.tables.map fun table => table.file.name).Nodup from distinct)
  simp only [writeRows, missing, inserted]
  exact ⟨_, rfl⟩

/-- A saved row passes exactly if its manifest is one of the scope and the hash, and its documents are the tables
in order. -/
theorem checkSaved_ok {snapshot : Snapshot B J} {row : SnapshotRow B J} {saved : PublishedManifest} :
    checkSaved lib engine snapshot row = .ok saved ↔ lib.published row.manifest = some saved ∧
      saved.validate lib snapshot.manifest.scope = .ok () ∧ saved.contentSha256 = snapshot.manifest.contentSha256 ∧
      List.Forall₂ (fun document table => sameTable engine document table = true) (orderRows engine row.documents)
        snapshot.tables := by
  have length : (orderRows engine row.documents).length = row.documents.length := List.length_insertionSort ..
  rw [List.forall₂_iff_zip, length]
  unfold checkSaved
  constructor
  · intro done
    split at done
    · cases done
    · rename_i parsed
      split at done
      · cases done
      · rename_i passed
        split at done
        · cases done
        · rename_i hash
          split at done
          · cases done
          · rename_i count
            split at done
            · rename_i equal
              cases done
              exact ⟨parsed, passed, by simpa using hash, by simpa using count,
                fun inside => List.all_eq_true.mp equal _ inside⟩
            · cases done
  · intro ⟨parsed, passed, hash, count, equal⟩
    have all : ((orderRows engine row.documents).zip snapshot.tables).all (fun p => sameTable engine p.1 p.2) = true :=
      List.all_eq_true.mpr fun p inside => equal inside
    simp only [parsed, passed, hash, count, all, bne_self_eq_false, Bool.false_eq_true, if_false, if_true]

/-- A row after `store_snapshot`: an old one, the one it was compared with, or a new one. -/
inductive Kept (lib : Serde B) (engine : Engine B J) (snapshot : Snapshot B J) (before : List (SnapshotRow B J))
    (row : SnapshotRow B J) : Prop where
  | same (old : SnapshotRow B J) : old ∈ before → row.contentHash = old.contentHash → row.manifest = old.manifest →
      row.documents = old.documents → Kept lib engine snapshot before row
  | renewed (old : SnapshotRow B J) (saved : PublishedManifest) : old ∈ before → checkSaved lib engine snapshot old = .ok saved →
      old.contentHash = snapshot.manifest.contentSha256 → row.contentHash = snapshot.manifest.contentSha256 →
      row.manifest = snapshot.manifestBytes → row.documents = old.documents →
      snapshot.manifest.resourceVersion.isSome = true → Kept lib engine snapshot before row
  | new : Rows.find SnapshotRow.contentHash snapshot.manifest.contentSha256 before = none →
      row.contentHash = snapshot.manifest.contentSha256 → row.manifest = snapshot.manifestBytes →
      insertDocuments engine snapshot.tables [] = .ok row.documents → Kept lib engine snapshot before row

theorem Kept.touch {snapshot : Snapshot B J} {before : List (SnapshotRow B J)} {row : SnapshotRow B J}
    (kept : Kept lib engine snapshot before row) (n : Nat) : Kept lib engine snapshot before { row with touched := n } := by
  cases kept with
  | same old inside hash manifest documents => exact .same old inside hash manifest documents
  | renewed old saved inside checked stored hash manifest documents version =>
    exact .renewed old saved inside checked stored hash manifest documents version
  | new missing hash manifest documents => exact .new missing hash manifest documents

/-- The row of the content is compared or appended, and every other row is as it was. -/
theorem writeRows_kept {snapshot : Snapshot B J} {before rows : List (SnapshotRow B J)}
    (distinct : (before.map SnapshotRow.contentHash).Nodup) (done : writeRows lib engine snapshot before = .ok rows) :
    (rows.map SnapshotRow.contentHash).Nodup ∧ ∀ row ∈ rows, Kept lib engine snapshot before row := by
  have old : ∀ row ∈ before, Kept lib engine snapshot before row := fun row inside => .same row inside rfl rfl rfl
  rcases writeRows_ok done with ⟨row, saved, found, checked, ⟨version, rfl⟩ | ⟨-, rfl⟩⟩ | ⟨missing, documents, inserted, rfl⟩
  · refine ⟨Rows.nodup_update (fun _ => rfl) distinct, fun new member => ?_⟩
    obtain ⟨other, inside, ⟨same, rfl⟩ | ⟨-, rfl⟩⟩ := Rows.mem_update member
    · obtain rfl : other = row := by
        have again := Rows.find_member distinct inside
        rw [same, found] at again
        exact (Option.some.inj again).symm
      exact .renewed other saved inside checked same same rfl rfl version
    · exact old _ inside
  · exact ⟨distinct, old⟩
  · refine ⟨Rows.nodup_append_new distinct missing, fun row member => ?_⟩
    rcases List.mem_append.mp member with inside | last
    · exact old row inside
    · cases List.mem_singleton.mp last
      exact .new missing rfl rfl inserted

/-- The rows of its scope after a committed `store_snapshot`. -/
theorem storeSnapshot_rows {keep : Nat} {now : Instant} {snapshot : Snapshot B J} {publication : Option (Option Instant)}
    {db after : Database B J} {receipt : StoreReceipt}
    (distinct : ((db.snapshots snapshot.manifest.scope).map SnapshotRow.contentHash).Nodup)
    (done : storeSnapshot lib engine keep now snapshot publication db = .ok (receipt, after)) :
    ((after.snapshots snapshot.manifest.scope).map SnapshotRow.contentHash).Nodup ∧
      ∀ row ∈ after.snapshots snapshot.manifest.scope, Kept lib engine snapshot (db.snapshots snapshot.manifest.scope) row := by
  obtain ⟨rows, written, ⟨-, -, rfl⟩ | ⟨-, rfl⟩⟩ := storeSnapshot_ok done
  · obtain ⟨keys, kept⟩ := writeRows_kept distinct written
    have part := retain_sublist engine keep snapshot.manifest.contentSha256 rows
    simp only [Function.update_self]
    exact ⟨keys.sublist (part.map _), fun row member => kept row (part.subset member)⟩
  · obtain ⟨keys, kept⟩ := writeRows_kept distinct written
    have part := retain_sublist engine keep snapshot.manifest.contentSha256 (Rows.update SnapshotRow.contentHash
      snapshot.manifest.contentSha256 (fun row => { row with touched := db.sequence + 1 }) rows)
    simp only [Function.update_self]
    refine ⟨List.Nodup.sublist (part.map _) (Rows.nodup_update (by exact fun _ => rfl) keys), fun row member => ?_⟩
    obtain ⟨old, inside, ⟨-, rfl⟩ | ⟨-, rfl⟩⟩ := Rows.mem_update (part.subset member)
    · exact (kept old inside).touch _
    · exact kept _ inside

/-- Once its rows are written, nothing refuses a snapshot. -/
theorem storeSnapshot_runs (keep : Nat) (now : Instant) (publication : Option (Option Instant)) {scope : Scope}
    {snapshot : Snapshot B J} {db : Database B J} {rows : List (SnapshotRow B J)}
    (intact : snapshot.Intact lib engine scope)
    (written : writeRows lib engine snapshot (db.snapshots snapshot.manifest.scope) = .ok rows) :
    ∃ receipt after, storeSnapshot lib engine keep now snapshot publication db = .ok (receipt, after) := by
  have few : ¬ 2 ^ 63 ≤ snapshot.bytes := by
    have total := intact.bytes_le
    simp only [maxTotal] at total
    omega
  obtain ⟨row, inside, same⟩ := writeRows_has written
  simp only [storeSnapshot, written, few, decide_false, Bool.and_false, Bool.false_eq_true, if_false]
  by_cases changed : (publication.isSome || db.current snapshot.manifest.scope != some snapshot.manifest.contentSha256) = true
  · obtain ⟨after, done⟩ := prune_runs engine keep
      (show ∃ row ∈ (recordEvent snapshot (publication.join.getD now) rows db).snapshots snapshot.manifest.scope,
          row.contentHash = snapshot.manifest.contentSha256 by
        simp only [recordEvent, Function.update_self]
        exact ⟨_, List.mem_map_of_mem inside, by rw [if_pos same]; exact same⟩)
      (by simp only [recordEvent, Function.update_self])
    rw [if_pos changed, done]
    exact ⟨_, _, rfl⟩
  · have still : db.current snapshot.manifest.scope = some snapshot.manifest.contentSha256 := by
      simp only [Bool.or_eq_true, bne_iff_ne, not_or, not_not] at changed
      exact changed.2
    obtain ⟨after, done⟩ := prune_runs engine keep
      (show ∃ row ∈ ({ db with snapshots := Function.update db.snapshots snapshot.manifest.scope rows } : Database B J).snapshots
          snapshot.manifest.scope, row.contentHash = snapshot.manifest.contentSha256 by
        simp only [Function.update_self]
        exact ⟨row, inside, same⟩)
      still
    rw [if_neg changed, done]
    exact ⟨_, _, rfl⟩

/-- Nothing of another scope changes. -/
theorem storeSnapshot_other {keep : Nat} {now : Instant} {snapshot : Snapshot B J} {publication : Option (Option Instant)}
    {db after : Database B J} {receipt : StoreReceipt} {scope : Scope}
    (done : storeSnapshot lib engine keep now snapshot publication db = .ok (receipt, after))
    (other : scope ≠ snapshot.manifest.scope) :
    after.snapshots scope = db.snapshots scope ∧ after.current scope = db.current scope := by
  obtain ⟨rows, -, ⟨-, -, rfl⟩ | ⟨-, rfl⟩⟩ := storeSnapshot_ok done
  · exact ⟨Function.update_of_ne other .., rfl⟩
  · exact ⟨Function.update_of_ne other .., Function.update_of_ne other ..⟩

end Spec

section Runs
variable [DecidableEq B] {lib : Serde B} {engine : Engine B J}

/-- A transaction that commits, or one that is rolled back with the numbers it took. -/
inductive Transaction (lib : Serde B) (engine : Engine B J) where
  | publish (keep : Nat) (now : Instant) {scope : Scope} (verified : Verified lib engine scope)
  | migrate (keep : Nat) (now : Instant) (history : History) (read : HistoryEntry → Option (Verified lib engine history.scope))
  | rollback (consumed : Nat)

/-- What the advisory lock puts in order. -/
def commit (db : Database B J) : Transaction lib engine → Option (Database B J)
  | .publish keep now verified => (publishSnapshot lib engine keep now verified.snapshot db).toOption.map Prod.snd
  | .migrate keep now history read =>
    (migrateTransaction lib engine keep now history (migrationPlanDigest lib engine history)
      (fun entry => (read entry).map Verified.snapshot) db).toOption.map Prod.snd
  | .rollback consumed => some { db with sequence := db.sequence + consumed }

def Transaction.keep : Transaction lib engine → Nat
  | .publish keep _ _ => keep
  | .migrate keep _ _ _ => keep
  | .rollback _ => 1

/-- What every store keeps, a migration of any length keeps. By induction on the entries. -/
theorem migrateEntries_invariant {P : Database B J → Prop} {keep : Nat} {now : Instant} {scope : Scope}
    {read : HistoryEntry → Option (Verified lib engine scope)} {entries : List HistoryEntry} {db after : Database B J}
    (stores : ∀ (verified : Verified lib engine scope) publication db receipt after, P db →
      storeSnapshot lib engine keep now verified.snapshot publication db = .ok (receipt, after) → P after)
    (done : migrateEntries lib engine keep now (fun entry => (read entry).map Verified.snapshot) entries db = .ok after)
    (holds : P db) : P after := by
  induction entries generalizing db with
  | nil =>
    cases done
    exact holds
  | cons entry rest ih =>
    unfold migrateEntries at done
    split at done
    · cases done
    · rename_i snapshot found
      obtain ⟨verified, -, rfl⟩ := Option.map_eq_some_iff.mp found
      split at done
      · cases done
      · split at done
        · cases done
        · rename_i receipt middle stored
          exact ih done (stores verified _ _ _ _ holds stored)

/-- A publication commits exactly if its store succeeds. -/
theorem publish_committed {keep : Nat} {now : Instant} {scope : Scope} {verified : Verified lib engine scope}
    {db after : Database B J} : commit db (.publish keep now verified) = some after ↔
      ∃ receipt, storeSnapshot lib engine keep now verified.snapshot none db = .ok (receipt, after) := by
  simp only [commit, publishSnapshot]
  cases stored : storeSnapshot lib engine keep now verified.snapshot none db with
  | error e => simp [Except.toOption]
  | ok pair =>
    obtain ⟨receipt, last⟩ := pair
    simp [Except.toOption]

/-- A committed migration is a replay, or the first one of a scope without any rows. -/
theorem migrate_committed {keep : Nat} {now : Instant} {history : History}
    {read : HistoryEntry → Option (Verified lib engine history.scope)} {db after : Database B J}
    (done : commit db (.migrate keep now history read) = some after) :
    (∃ saved, db.migrations history.scope = some saved ∧ after = db) ∨
    db.migrations history.scope = none ∧ db.occupied history.scope = false ∧ ∃ last record,
      migrateEntries lib engine keep now (fun entry => (read entry).map Verified.snapshot) history.entries.reverse db = .ok last ∧
      after = { last with migrations := Function.update last.migrations history.scope (some record) } := by
  obtain ⟨⟨receipt, last⟩, returned, rfl⟩ := Option.map_eq_some_iff.mp done
  simp only [migrateTransaction] at returned
  split at returned
  · rename_i saved recorded
    split at returned
    · cases returned
    · cases returned
      exact Or.inl ⟨saved, recorded, rfl⟩
  · rename_i unrecorded
    split at returned
    · cases returned
    · rename_i free
      split at returned
      · cases returned
      · rename_i middle stored
        cases returned
        exact Or.inr ⟨unrecorded, by simpa using free, middle, _, stored, rfl⟩

/-- What every `store_snapshot` keeps, and what depends neither on the numbers that are left nor on the
records of migrations, every transaction keeps. -/
theorem commit_invariant {P : Database B J → Prop} {transaction : Transaction lib engine} {db after : Database B J}
    (stores : ∀ now scope (verified : Verified lib engine scope) publication db receipt after, P db →
      storeSnapshot lib engine transaction.keep now verified.snapshot publication db = .ok (receipt, after) → P after)
    (numbers : ∀ db consumed, P db → P { db with sequence := db.sequence + consumed })
    (records : ∀ db migrations, P db → P { db with migrations }) (done : commit db transaction = some after) (holds : P db) :
    P after := by
  cases transaction with
  | publish keep now verified =>
    obtain ⟨receipt, stored⟩ := publish_committed.mp done
    exact stores now _ verified _ _ _ _ holds stored
  | migrate keep now history read =>
    rcases migrate_committed done with ⟨-, -, rfl⟩ | ⟨-, -, last, record, stored, rfl⟩
    · exact holds
    · exact records _ _ (migrateEntries_invariant (fun verified => stores now _ verified) stored holds)
  | rollback consumed =>
    cases done
    exact numbers db consumed holds

end Runs

end SiriusProxy.Master
