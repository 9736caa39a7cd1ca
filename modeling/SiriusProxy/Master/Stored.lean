import SiriusProxy.Master.Bundle
import SiriusProxy.Master.Mirror

namespace SiriusProxy.Master

variable {B J : Type}

section Reader
variable (lib : Serde B)

/-- `octet_length(manifest)` that the reader accepts. -/
def maxStoredManifest : Nat := 1048576

/-- `document_inner` with the row that it selected. -/
def documentOf (scope : Scope) (hash table : Option String) (row : SnapshotRow B J) : Except MirrorError (Document B) :=
  if maxStoredManifest < lib.length row.manifest then .error .integrity
  else match lib.published row.manifest with
    | none => .error .integrity
    | some manifest => match manifest.validate lib scope with
      | .error _ => .error .integrity
      | .ok () =>
        if manifest.contentSha256 != row.contentHash || hash.any (· != row.contentHash) then .error .integrity
        else match table with
          | none =>
            .ok { bytes := row.manifest, etag := "\"" ++ digest lib row.manifest ++ "\"", version := manifest.version }
          | some table => match Rows.find File.name (table ++ ".json") manifest.files with
            | none => .error .notFound
            | some expected => match Rows.find DocumentRow.name (table ++ ".json") row.documents with
              | none => .error .integrity
              | some document =>
                if 67108864 < lib.length document.bytes then .error .integrity
                else if lib.length document.bytes != expected.size || document.sha256 != expected.sha256 ||
                    digest lib document.bytes != expected.sha256 then .error .integrity
                else if !lib.validJson document.bytes then .error .integrity
                else .ok { bytes := document.bytes, etag := "\"" ++ digest lib document.bytes ++ "\"",
                           version := manifest.version }

/-- `Reader::document` within its time; its statements see one state of the database. -/
def Database.document (db : Database B J) (scope : Scope) (hash table : Option String) : Except MirrorError (Document B) :=
  if !scope.region.masterSupported || hash.any (fun h => !hashValid h) ||
      table.any (fun t => hash.isNone || !safeComponent t) then .error .invalidRequest
  else match (hash <|> db.current scope).bind fun selected =>
      Rows.find SnapshotRow.contentHash selected (db.snapshots scope) with
    | none => .error .notFound
    | some row => documentOf lib scope hash table row

end Reader

section Served
variable {lib : Serde B} {engine : Engine B J}

/-- A document row that holds a table of a manifest. -/
structure DocumentRow.Holds (lib : Serde B) (row : DocumentRow B J) (f : File) : Prop where
  name : row.name = f.name
  sha256 : row.sha256 = f.sha256
  size : lib.length row.bytes = f.size
  hash : digest lib row.bytes = f.sha256
  json : lib.validJson row.bytes = true

/-- A row whose manifest passes the check and lists tables that are there. -/
structure SnapshotRow.Serves (lib : Serde B) (scope : Scope) (row : SnapshotRow B J) (p : PublishedManifest) : Prop where
  read : lib.published row.manifest = some p
  passed : p.validate lib scope = .ok ()
  content : p.contentSha256 = row.contentHash
  distinct : (row.documents.map DocumentRow.name).Nodup
  tables : ∀ f ∈ p.files, ∃ document ∈ row.documents, document.Holds lib f
  named : ∀ f ∈ p.files, ∃ stem, f.name = stem ++ ".json" ∧ safeComponent stem = true

theorem Snapshot.Intact.table {scope : Scope} {snapshot : Snapshot B J} (intact : snapshot.Intact lib engine scope) {f : File}
    (member : f ∈ snapshot.manifest.files) : ∃ table ∈ snapshot.tables, table.file = f ∧ table.Intact lib engine := by
  rw [← intact.files] at member
  obtain ⟨table, inside, same⟩ := List.mem_map.mp member
  exact ⟨table, inside, same, intact.tables table inside⟩

theorem Table.Intact.holds {table : Table B J} {row : DocumentRow B J} (intact : table.Intact lib engine)
    (name : row.name = table.file.name) (sha256 : row.sha256 = table.file.sha256) (bytes : row.bytes = table.bytes) :
    row.Holds lib table.file :=
  ⟨name, sha256, bytes ▸ intact.size, bytes ▸ intact.hash, bytes ▸ intact.json⟩

/-- A row that was just inserted has the tables of the snapshot, so it serves them. -/
theorem Snapshot.Intact.serves_new {scope : Scope} {snapshot : Snapshot B J} {row : SnapshotRow B J}
    (intact : snapshot.Intact lib engine scope) (hash : row.contentHash = snapshot.manifest.contentSha256)
    (manifest : row.manifest = snapshot.manifestBytes)
    (inserted : insertDocuments engine snapshot.tables [] = .ok row.documents) : row.Serves lib scope snapshot.manifest := by
  obtain ⟨new, whole, each, distinct⟩ := insertDocuments_ok inserted (by simp)
  rw [List.nil_append] at whole
  refine ⟨manifest ▸ intact.read, intact.passed, hash.symm, distinct, fun f member => ?_, fun f member => ?_⟩
  · obtain ⟨table, inside, rfl, good⟩ := intact.table member
    obtain ⟨document, there, written⟩ := Rows.mem_forall₂ each inside
    exact ⟨document, whole ▸ there, good.holds written.name written.sha256 written.bytes⟩
  · obtain ⟨table, inside, rfl, good⟩ := intact.table member
    exact good.named

/-- Every row can be served, its length apart. -/
structure Database.Whole (lib : Serde B) (db : Database B J) : Prop where
  distinct : ∀ scope, ((db.snapshots scope).map SnapshotRow.contentHash).Nodup
  serves : ∀ scope, ∀ row ∈ db.snapshots scope, ∃ p, row.Serves lib scope p

theorem PublishedManifest.Valid.distinct {p : PublishedManifest} {scope : Scope} (valid : p.Valid lib scope) :
    (p.files.map File.name).Nodup :=
  Inventory.Valid.distinct valid.inventory (Manifest.parse_ok.mp valid.parsed).2.2

theorem documentOf_long {scope : Scope} {hash table : Option String} {row : SnapshotRow B J}
    (long : maxStoredManifest < lib.length row.manifest) : documentOf lib scope hash table row = .error .integrity :=
  if_pos long

/-- The reader serves the manifest of a row and its tables where the manifest is short. -/
theorem SnapshotRow.Serves.documentOf_short {scope : Scope} {row : SnapshotRow B J} {p : PublishedManifest}
    (serves : row.Serves lib scope p) (short : lib.length row.manifest ≤ maxStoredManifest) :
    documentOf lib scope (some row.contentHash) none row =
        .ok ⟨row.manifest, "\"" ++ digest lib row.manifest ++ "\"", p.version⟩ ∧
      ∀ f ∈ p.files, ∃ stem bytes, f.name = stem ++ ".json" ∧ safeComponent stem = true ∧
        documentOf lib scope (some row.contentHash) (some stem) row = .ok ⟨bytes, "\"" ++ f.sha256 ++ "\"", p.version⟩ ∧
        lib.length bytes = f.size ∧ digest lib bytes = f.sha256 := by
  have valid := PublishedManifest.valid_of_validate serves.passed
  constructor
  · simp only [documentOf, if_neg (Nat.not_lt.mpr short), serves.read, serves.passed, serves.content, Option.any_some,
      bne_self_eq_false, Bool.or_self, Bool.false_eq_true, if_false]
  · intro f member
    obtain ⟨stem, named, safe⟩ := serves.named f member
    obtain ⟨document, inside, holds⟩ := serves.tables f member
    have listed := Rows.find_member valid.distinct member
    have stored := Rows.find_member serves.distinct inside
    have small : ¬ 67108864 < f.size := Nat.not_lt.mpr (valid.inventory.files f member).2.1
    rw [named] at listed
    rw [holds.name, named] at stored
    refine ⟨stem, document.bytes, named, safe, ?_, holds.size, holds.hash⟩
    simp only [documentOf, if_neg (Nat.not_lt.mpr short), serves.read, serves.passed, serves.content, Option.any_some,
      bne_self_eq_false, Bool.or_self, Bool.false_eq_true, if_false, listed, stored, holds.size, small, holds.sha256,
      holds.hash, holds.json, Bool.not_true]

/-- Content hashes are unique among the rows of a scope, so a read by the hash of a row reads that row. -/
theorem Database.document_of_member {db : Database B J} {scope : Scope} {row : SnapshotRow B J} {table : Option String}
    (supported : scope.region.masterSupported = true) (valid : hashValid row.contentHash = true)
    (distinct : ((db.snapshots scope).map SnapshotRow.contentHash).Nodup) (member : row ∈ db.snapshots scope)
    (safe : ∀ name, table = some name → safeComponent name = true) :
    db.document lib scope (some row.contentHash) table = documentOf lib scope (some row.contentHash) table row := by
  have found := Rows.find_member distinct member
  have request : table.any (fun t => (some row.contentHash).isNone || !safeComponent t) = false := by
    cases table with
    | none => rfl
    | some name => simp [safe name rfl]
  simp only [Database.document, supported, valid, request, Bool.not_true, Option.any_some, Bool.or_self, Bool.false_eq_true,
    if_false, Option.orElse_eq_orElse, Option.orElse_some, Option.bind_some, found]

/-- What the reader owes for a row that is there: the manifest as it was stored and every table of it. -/
def Served (lib : Serde B) (db : Database B J) (scope : Scope) (row : SnapshotRow B J) (p : PublishedManifest) : Prop :=
  db.document lib scope (some row.contentHash) none =
      .ok ⟨row.manifest, "\"" ++ digest lib row.manifest ++ "\"", p.version⟩ ∧
    ∀ f ∈ p.files, ∃ stem bytes, f.name = stem ++ ".json" ∧
      db.document lib scope (some row.contentHash) (some stem) = .ok ⟨bytes, "\"" ++ f.sha256 ++ "\"", p.version⟩ ∧
      lib.length bytes = f.size ∧ digest lib bytes = f.sha256

/-- Whatever else a read checks holds of a whole database, so the length of its manifest decides whether a row can
be served. -/
theorem Database.Whole.served {db : Database B J} {scope : Scope} {row : SnapshotRow B J} {p : PublishedManifest}
    (digests : ∀ bytes, hashValid (lib.sha256 bytes) = true) (whole : db.Whole lib) (member : row ∈ db.snapshots scope)
    (serves : row.Serves lib scope p) : Served lib db scope row p ↔ lib.length row.manifest ≤ maxStoredManifest := by
  have valid := PublishedManifest.valid_of_validate serves.passed
  have hash : hashValid row.contentHash = true := by
    rw [← serves.content, ← valid.content]
    exact digests _
  have read : ∀ table, (∀ name, table = some name → safeComponent name = true) →
      db.document lib scope (some row.contentHash) table = documentOf lib scope (some row.contentHash) table row :=
    fun table => Database.document_of_member valid.supported hash (whole.distinct scope) member
  constructor
  · intro served
    by_contra long
    have refused := served.1
    rw [read none (by simp), documentOf_long (Nat.not_le.mp long)] at refused
    cases refused
  · intro short
    obtain ⟨manifest, tables⟩ := serves.documentOf_short short
    refine ⟨by rw [read none (by simp)]; exact manifest, fun f inside => ?_⟩
    obtain ⟨stem, bytes, named, safe, served, good⟩ := tables f inside
    refine ⟨stem, bytes, named, ?_, good⟩
    rw [read (some stem) fun name same => Option.some.inj same ▸ safe]
    exact served

/-- Every table of a complete import is a file with its recorded hash and valid JSON, so the reader of the tables
gets through. By induction on the files that are left. -/
theorem Complete.eval_verifiedTables {root : Root B} {files : String → Option (Node B)} {receipt : ImportReceipt}
    {source : Manifest} {index : Inventory} {scope : Scope} (complete : Complete lib files receipt source index)
    (there : root.snapshots receipt.snapshot = some (.directory files)) (region : scope.region = receipt.region)
    (values : ∀ bytes, lib.validJson bytes = true → (engine.value bytes).isSome = true) {rest : List File}
    (part : ∀ f ∈ rest, f ∈ index.files) (before : List (Table B J)) :
    ∃ tables, Reads.eval root (verifiedTables lib engine scope receipt.snapshot rest before) = .ok tables := by
  induction rest generalizing before with
  | nil => exact ⟨before, rfl⟩
  | cons f rest ih =>
    obtain ⟨first, others⟩ := List.forall_mem_cons.mp part
    obtain ⟨stem, named⟩ := complete.stem first
    obtain ⟨bytes, read, size, -, json⟩ := complete.eval_table first named
    obtain ⟨value, parsed⟩ := Option.isSome_iff_exists.mp (values bytes json)
    have cut : stripSuffix f.name.toList ['.', 'j', 's', 'o', 'n'] = some stem.toList := by
      rw [named.file, String.toList_append]
      exact stripSuffix_append ..
    have data : Reads.eval root (((tableRead lib scope.region receipt.snapshot (String.ofList stem.toList) f.sha256 true).zoom
        fun root => root.snapshots receipt.snapshot).mapError fun _ => MirrorError.snapshot) =
          .ok ⟨bytes, "\"" ++ f.sha256 ++ "\"", source.version⟩ := by
      rw [Reads.eval_mapError, Reads.eval_zoom, there, String.ofList_toList, region, read]
      rfl
    unfold verifiedTables
    rw [cut]
    simp only
    rw [Reads.eval_bind_ok data]
    simp only [size, bne_self_eq_false, Bool.false_eq_true, if_false, parsed]
    exact ih others _

/-- A complete snapshot that is there passes the verification. -/
theorem Complete.verified {root : Root B} {files : String → Option (Node B)} {receipt : ImportReceipt} {source : Manifest}
    {index : Inventory} {scope : Scope} (complete : Complete lib files receipt source index)
    (there : root.snapshots receipt.snapshot = some (.directory files)) (valid : scope.valid = true)
    (region : scope.region = receipt.region)
    (values : ∀ bytes, lib.validJson bytes = true → (engine.value bytes).isSome = true) :
    ∃ verified : Verified lib engine scope, verified.snapshot.manifest = Complete.published lib scope receipt source index ∧
      verified.snapshot.manifestBytes = lib.ofPublished (Complete.published lib scope receipt source index) := by
  obtain ⟨tables, read⟩ := complete.eval_verifiedTables there region values (fun f member => member) []
  refine ⟨⟨⟨Complete.published lib scope receipt source index, _, tables⟩, some receipt.snapshot, fun _ => root, ?_⟩, rfl, rfl⟩
  rw [Reads.run_still _ fun _ _ => rfl]
  have document : Reads.eval root ((Master.manifest lib (some receipt.snapshot) scope).mapError fun _ => MirrorError.snapshot) =
      .ok (Master.document lib (Complete.published lib scope receipt source index)) := by
    rw [Reads.eval_mapError, complete.eval_pinned there valid region]
    rfl
  unfold verifiedSnapshot
  rw [Reads.eval_bind_ok document]
  simp only [Master.document, lib.published_ofPublished, complete.validate region]
  exact Reads.eval_bind_ok read

variable [DecidableEq B]

/-- The new manifest lists the tables that the documents were compared with. -/
theorem Snapshot.Intact.serves_renewed {scope : Scope} {snapshot : Snapshot B J} {row old : SnapshotRow B J}
    {saved p : PublishedManifest} (intact : snapshot.Intact lib engine scope) (serves : old.Serves lib scope p)
    (checked : checkSaved lib engine snapshot old = .ok saved) (hash : row.contentHash = snapshot.manifest.contentSha256)
    (manifest : row.manifest = snapshot.manifestBytes) (documents : row.documents = old.documents) :
    row.Serves lib scope snapshot.manifest := by
  obtain ⟨-, -, -, equal⟩ := checkSaved_ok.mp checked
  refine ⟨manifest ▸ intact.read, intact.passed, hash.symm, documents ▸ serves.distinct, fun f member => ?_, fun f member => ?_⟩
  · obtain ⟨table, inside, rfl, good⟩ := intact.table member
    obtain ⟨document, there, same⟩ := Rows.mem_forall₂ equal.flip inside
    simp only [sameTable, Bool.and_eq_true, beq_iff_eq, decide_eq_true_eq] at same
    obtain ⟨⟨⟨name, sha256⟩, bytes⟩, -⟩ := same
    exact ⟨document, documents ▸ (List.mem_insertionSort _).mp there, good.holds name sha256 bytes⟩
  · obtain ⟨table, inside, rfl, good⟩ := intact.table member
    exact good.named

/-- A store keeps every row whole, whether it was there, was confirmed or is new; the retention only drops rows. -/
theorem Database.Whole.store {keep : Nat} {now : Instant} {scope : Scope} {snapshot : Snapshot B J}
    {publication : Option (Option Instant)} {db after : Database B J} {receipt : StoreReceipt} (whole : db.Whole lib)
    (intact : snapshot.Intact lib engine scope)
    (done : storeSnapshot lib engine keep now snapshot publication db = .ok (receipt, after)) : after.Whole lib := by
  have own := intact.scope
  obtain ⟨keys, kept⟩ := storeSnapshot_rows (whole.distinct _) done
  refine ⟨fun other => ?_, fun other row member => ?_⟩
  · by_cases same : other = snapshot.manifest.scope
    · exact same ▸ keys
    · rw [(storeSnapshot_other done same).1]
      exact whole.distinct other
  · by_cases same : other = snapshot.manifest.scope
    · subst same
      cases kept row member with
      | same old inside hash manifest documents =>
        obtain ⟨p, serves⟩ := whole.serves _ old inside
        exact ⟨p, ⟨manifest ▸ serves.read, serves.passed, hash ▸ serves.content, documents ▸ serves.distinct,
          documents ▸ serves.tables, serves.named⟩⟩
      | renewed old saved inside checked stored hash manifest documents version =>
        obtain ⟨p, serves⟩ := whole.serves _ old inside
        rw [own] at serves ⊢
        exact ⟨_, intact.serves_renewed serves checked hash manifest documents⟩
      | new missing hash manifest documents =>
        rw [own]
        exact ⟨_, intact.serves_new hash manifest documents⟩
    · rw [(storeSnapshot_other done same).1] at member
      exact whole.serves other row member

theorem reach_whole {db : Database B J} (reach : Run.Reach commit (fun _ (_ : Transaction lib engine) => True) {} db) :
    db.Whole lib := by
  refine reach.invariant ⟨fun _ => List.nodup_nil, fun _ _ member => absurd member List.not_mem_nil⟩ ?_
  intro before transaction after whole _ done
  exact commit_invariant (fun _ _ verified _ _ _ _ whole stored => whole.store verified.intact stored)
    (fun _ _ whole => ⟨whole.distinct, whole.serves⟩) (fun _ _ whole => ⟨whole.distinct, whole.serves⟩) done whole

/-- In every state of the mirror, a row that is there is served exactly if its manifest has at most
1,048,576 bytes; and a committed publication leaves its row. -/
theorem mirror_served (lib : Serde B) (engine : Engine B J) (digests : ∀ bytes, hashValid (lib.sha256 bytes) = true)
    {db : Database B J} (reach : Run.Reach commit (fun _ (_ : Transaction lib engine) => True) {} db) :
    (∀ scope, ∀ row ∈ db.snapshots scope, ∃ p, lib.published row.manifest = some p ∧ p.scope = scope ∧
      p.contentSha256 = row.contentHash ∧ (Served lib db scope row p ↔ lib.length row.manifest ≤ 1048576)) ∧
    ∀ keep now scope (verified : Verified lib engine scope) after, commit db (.publish keep now verified) = some after →
      ∃ row ∈ after.snapshots scope, row.contentHash = verified.snapshot.manifest.contentSha256 := by
  have whole := reach_whole reach
  constructor
  · intro scope row member
    obtain ⟨p, serves⟩ := whole.serves scope row member
    exact ⟨p, serves.read, (PublishedManifest.valid_of_validate serves.passed).own, serves.content,
      whole.served digests member serves⟩
  · intro keep now scope verified after done
    obtain ⟨receipt, stored⟩ := publish_committed.mp done
    have left := storeSnapshot_has stored
    rw [verified.intact.scope] at left
    exact left

/-- A publication of a content that is not there goes through where the database takes its values. -/
theorem publish_missing (keep : Nat) (now : Instant) {scope : Scope} (verified : Verified lib engine scope)
    (stored : ∀ value, (engine.jsonb value).isSome = true) {db : Database B J}
    (missing : Rows.find SnapshotRow.contentHash verified.snapshot.manifest.contentSha256
      (db.snapshots verified.snapshot.manifest.scope) = none) :
    ∃ receipt after, storeSnapshot lib engine keep now verified.snapshot none db = .ok (receipt, after) := by
  have intact := verified.intact
  obtain ⟨rows, written⟩ := writeRows_new intact (PublishedManifest.valid_of_validate intact.passed).distinct missing
    fun table _ => stored table.value
  exact storeSnapshot_runs keep now none intact written

/-- The first publication into an empty database leaves its row. -/
theorem publish_first (keep : Nat) (now : Instant) {scope : Scope} (verified : Verified lib engine scope)
    (stored : ∀ value, (engine.jsonb value).isSome = true) :
    ∃ db, commit {} (.publish keep now verified) = some db ∧ ∃ row ∈ db.snapshots scope,
      row.contentHash = verified.snapshot.manifest.contentSha256 ∧ row.manifest = verified.snapshot.manifestBytes := by
  have missing : Rows.find SnapshotRow.contentHash verified.snapshot.manifest.contentSha256
      (({} : Database B J).snapshots verified.snapshot.manifest.scope) = none := rfl
  obtain ⟨receipt, db, done⟩ := publish_missing keep now verified stored missing
  obtain ⟨row, member, same⟩ := storeSnapshot_has done
  refine ⟨db, publish_committed.mpr ⟨receipt, done⟩, row, verified.intact.scope ▸ member, same, ?_⟩
  have empty : ((({} : Database B J).snapshots verified.snapshot.manifest.scope).map SnapshotRow.contentHash).Nodup :=
    List.nodup_nil
  cases (storeSnapshot_rows empty done).2 row member with
  | same old inside => exact absurd inside List.not_mem_nil
  | renewed old saved inside => exact absurd inside List.not_mem_nil
  | new missing hash manifest documents => exact manifest

end Served

section Wide

/-- Tables are their texts, and JSONB gives every value back. -/
def textEngine : Engine Doc String where
  value := fun | .table json _ => some json | _ => none
  same a b := a == b
  ofPlan plan := .text plan.head
  jsonb := some
  collate a b := decide (a ≤ b)
  collate_total a b := by simpa using le_total a b
  collate_trans a b c := by simpa using le_trans

theorem textEngine_values (bytes : Doc) (json : servedSerde.validJson bytes = true) :
    (textEngine.value bytes).isSome = true := by
  cases bytes <;> first | rfl | cases json

/-- A directory with one snapshot. -/
def single (snapshot : String) (files : String → Option (Node Doc)) : Root Doc where
  snapshots s := if s = snapshot then some (.directory files) else none

theorem single_there (snapshot : String) (files : String → Option (Node Doc)) :
    (single snapshot files).snapshots snapshot = some (.directory files) := if_pos rfl

theorem sample_valid : sampleScope.valid = true := by decide +kernel

def wideStem (i : Nat) : List Char := ['M', 'a', 's', 't', 'e', 'r'] ++ (List.replicate 100 'a' ++ hexDigits i)

def wideEntry (i : Nat) : Entry where
  name := String.ofList (wideStem i ++ ['.', 'b', 'i', 'n'])
  hash := emptyTableSha
  size := 96

/-- A manifest of `n` tables with long names. -/
def wideManifest (n : Nat) : Manifest where
  version := "1.0"
  files := (List.range n).map wideEntry

def wideIndex (n : Nat) : Inventory where
  schemaVersion := 1
  version := "1.0"
  files := (expectedNames (wideManifest n)).map fun name => ⟨name, 2, emptyTableSha⟩

theorem wideStem_safe (i : Nat) : (wideStem i).all isSafeChar = true := by
  have digit : ∀ m, isSafeChar (Nat.digitChar (m % 16)) = true :=
    fun m => isSafeChar_of_lowerHex (isLowerHex_digitChar _ (Nat.mod_lt _ (by decide)))
  have front : (['M', 'a', 's', 't', 'e', 'r'] ++ List.replicate 100 'a').all isSafeChar = true := by decide
  rw [wideStem, ← List.append_assoc, List.all_append, front]
  simp [hexDigits, digit]

theorem wideStem_length (i : Nat) : (wideStem i).length = 110 := rfl

theorem size_safe {l : List Char} (safe : l.all isSafeChar = true) : JsonText.size l = l.length := by
  refine JsonText.size_ascii fun c member => ?_
  have plain := isPlain_of_safe (List.all_eq_true.mp safe c member)
  simp only [JsonText.isPlain, Bool.and_eq_true, decide_eq_true_eq] at plain
  have small : c.val ≤ 127 := Nat.le_of_lt_succ plain.1.1.2
  simp [Char.utf8Size, small]

theorem wideStem_size (i : Nat) : JsonText.size (wideStem i) = 110 :=
  (size_safe (wideStem_safe i)).trans (wideStem_length i)

/-- The stems are made of safe characters, whatever the number, so the entries pass their check. -/
theorem wide_wellFormed (i : Nat) : (wideEntry i).wellFormed = true := by
  have cut : stripSuffix (wideEntry i).name.toList ['.', 'b', 'i', 'n'] = some (wideStem i) := by
    rw [wideEntry, String.toList_ofList]
    exact stripSuffix_append ..
  have other : String.ofList (wideStem i) ≠ "MasterManifest" := by
    intro same
    have sizes := congrArg String.utf8ByteSize same
    rw [JsonText.utf8ByteSize_eq_size, String.toList_ofList, wideStem_size] at sizes
    exact absurd sizes (by decide)
  have filled : String.ofList (wideStem i) ≠ "" := by
    intro same
    have sizes := congrArg String.utf8ByteSize same
    rw [JsonText.utf8ByteSize_eq_size, String.toList_ofList, wideStem_size] at sizes
    exact absurd sizes (by decide)
  have start : startsWith (String.ofList (wideStem i)) "Master" = true := by
    rw [startsWith, String.toList_ofList, String.toList_ofList]
    rfl
  have safe : safeComponent (String.ofList (wideStem i)) = true := by
    simp only [safeComponent, JsonText.utf8ByteSize_eq_size, String.toList_ofList, wideStem_size, wideStem_safe, Bool.and_true,
      Bool.and_eq_true, bne_iff_ne]
    exact ⟨filled, by decide⟩
  have rest : (decide (emptyTableSha.utf8ByteSize = 64) && emptyTableSha.toList.all isAsciiHexDigit && decide (64 < 96) &&
      decide (96 ≤ maxEncrypted) && decide (96 % 32 = 0)) = true := by decide +kernel
  unfold Entry.wellFormed
  rw [cut]
  simp only [start, safe, bne_iff_ne.mpr other, wideEntry, Bool.true_and]
  exact rest

theorem wideEntry_inj {i j : Nat} (few : i < 65536) (also : j < 65536) (same : (wideEntry i).name = (wideEntry j).name) :
    i = j := by
  have texts := List.append_cancel_right (String.ofList_injective same)
  exact hexDigits_inj few also (List.append_cancel_left (List.append_cancel_left texts))

/-- With up to 4096 such entries the manifest passes its checks. -/
theorem wide_valid {n : Nat} (some_ : 0 < n) (few : n ≤ 4096) : (wideManifest n).Valid where
  version := show safeVersion "1.0" = true by decide +kernel
  nonempty := by simpa [wideManifest] using Nat.ne_of_gt some_
  count := by simpa [wideManifest] using few
  entries e member := by
    obtain ⟨i, -, rfl⟩ := List.mem_map.mp member
    exact wide_wellFormed i
  distinct := by
    rw [wideManifest, List.map_map, List.nodup_map_iff_inj_on List.nodup_range]
    intro i first j second same
    have below := List.mem_range.mp first
    have also := List.mem_range.mp second
    exact wideEntry_inj (by omega) (by omega) same
  total := by
    have sizes : ((wideManifest n).files.map Entry.size) = List.replicate n 96 := by
      rw [wideManifest, List.map_map]
      exact (List.map_const' ..).trans (by rw [List.length_range])
    rw [sizes, List.sum_replicate_nat, maxTotal]
    omega

theorem wide_jsonName (i : Nat) : jsonName (wideEntry i).name = String.ofList (wideStem i ++ ['.', 'j', 's', 'o', 'n']) := by
  rw [jsonName, wideEntry, String.toList_ofList, replaceBin_stem (wideStem_safe i)]

/-- A long name with five more bytes, or four. -/
theorem size_wideName {suffix : List Char} (plain : suffix.all JsonText.isPlain = true) (i : Nat) :
    JsonText.size (JsonText.str (String.ofList (wideStem i ++ suffix))) = JsonText.size suffix + 112 := by
  have all : (String.ofList (wideStem i ++ suffix)).toList.all JsonText.isPlain = true := by
    rw [String.toList_ofList, List.all_append, all_plain (fun _ => isPlain_of_safe) (wideStem_safe i), plain]
    rfl
  rw [JsonText.size_str_plain all, JsonText.utf8ByteSize_eq_size, String.toList_ofList, JsonText.size_append, wideStem_size]
  omega

theorem size_emptyTableSha : JsonText.size (JsonText.str emptyTableSha) = 66 := by decide +kernel

/-- Each entry takes the same number of bytes. -/
theorem size_wideEntry (i : Nat) : JsonText.size (wideEntry i).text = 209 := by
  have k1 : JsonText.size (JsonText.str "name") = 6 := rfl
  have k2 : JsonText.size (JsonText.str "hash") = 6 := rfl
  have k3 : JsonText.size (JsonText.str "size") = 6 := rfl
  have number : JsonText.size (JsonText.nat 96) = 2 := by decide +kernel
  have name : JsonText.size (JsonText.str (wideEntry i).name) = 116 := size_wideName (by decide) i
  have hash : JsonText.size (JsonText.str (wideEntry i).hash) = 66 := size_emptyTableSha
  have size : JsonText.size (JsonText.nat (wideEntry i).size) = 2 := number
  rw [Entry.text, JsonText.size_obj]
  simp only [List.map_cons, List.map_nil, List.sum_cons, List.sum_nil, List.length_cons, List.length_nil, k1, k2, k3, name, hash,
    size]
  rfl

/-- So does each file of the index. -/
theorem size_wideFile {n : Nat} {f : File} (member : f ∈ (wideIndex n).files) : JsonText.size f.text = 211 := by
  obtain ⟨name, named, rfl⟩ := List.mem_map.mp member
  obtain ⟨e, inside, rfl⟩ := mem_expectedNames.mp named
  obtain ⟨i, -, rfl⟩ := List.mem_map.mp inside
  have k1 : JsonText.size (JsonText.str "name") = 6 := rfl
  have k2 : JsonText.size (JsonText.str "size") = 6 := rfl
  have k3 : JsonText.size (JsonText.str "sha256") = 8 := rfl
  have number : JsonText.size (JsonText.nat 2) = 1 := by decide +kernel
  have long : JsonText.size (JsonText.str (jsonName (wideEntry i).name)) = 117 := by
    rw [wide_jsonName]
    exact size_wideName (by decide) i
  rw [File.text, JsonText.size_obj]
  simp only [List.map_cons, List.map_nil, List.sum_cons, List.sum_nil, List.length_cons, List.length_nil, k1, k2, k3, long,
    size_emptyTableSha, number]
  rfl

theorem sum_sizes {α : Type} {l : List α} {g : α → List Char} {c : Nat} (each : ∀ a ∈ l, JsonText.size (g a) = c) :
    ((l.map g).map JsonText.size).sum = l.length * c := by
  have constant : l.map (JsonText.size ∘ g) = l.map fun _ => c := List.map_congr_left each
  rw [List.map_map, constant, List.map_const', List.sum_replicate_nat]

/-- The size of a manifest is that of its entries in any order, and a little more. -/
theorem size_wideManifest {n : Nat} {m : Manifest} (version : m.version = "1.0") (perm : m.files.Perm (wideManifest n).files) :
    n * 209 ≤ JsonText.size m.text ∧ JsonText.size m.text ≤ n * 210 + 64 := by
  have k1 : JsonText.size (JsonText.str "version") = 9 := rfl
  have k2 : JsonText.size (JsonText.str "files") = 7 := rfl
  have k3 : JsonText.size (JsonText.str "1.0") = 5 := rfl
  have count : m.files.length = n := by
    rw [perm.length_eq]
    simp [wideManifest]
  have entries := sum_sizes (g := Entry.text) (c := 209) (l := m.files) fun e member => by
    obtain ⟨i, -, rfl⟩ := List.mem_map.mp (perm.subset member)
    exact size_wideEntry i
  rw [count] at entries
  rw [Manifest.text, JsonText.size_obj]
  simp only [List.map_cons, List.map_nil, List.sum_cons, List.sum_nil, List.length_cons, List.length_nil, JsonText.size_arr,
    entries, List.length_map, count, version, k1, k2, k3]
  omega

/-- The index lists one table for each entry, under the name that is expected for it. -/
theorem wideIndex_valid {n : Nat} (few : n ≤ 4096) : (wideIndex n).Valid (wideManifest n) where
  schema := rfl
  version := rfl
  names := by
    rw [wideIndex, List.map_map]
    exact List.map_id _
  files f member := by
    have valid : hashValid emptyTableSha = true := by decide +kernel
    obtain ⟨name, -, rfl⟩ := List.mem_map.mp member
    exact ⟨show 2 ≠ 0 by decide, show 2 ≤ maxJson by decide, valid⟩
  total := by
    have sizes : (wideIndex n).files.map File.size = List.replicate n 2 := by
      rw [wideIndex, List.map_map]
      refine (List.map_const' ..).trans ?_
      rw [length_expectedNames]
      simp [wideManifest]
    rw [sizes, List.sum_replicate_nat, maxTotal]
    omega

def wideReceipt (n : Nat) : ImportReceipt := { sampleReceipt "master-a" with tables := n }

/-- Every table of a wide snapshot is the same. -/
def wideTables (n : Nat) (name : String) : Option (Node Doc) :=
  if name ∈ expectedNames (wideManifest n) then some (.file (.table "[]" emptyTableSha)) else none

/-- So there is a complete import of this size. -/
theorem wide_complete {n : Nat} (some_ : 0 < n) (few : n ≤ 4096) :
    Complete servedSerde (stage servedSerde (wideTables n) (wideIndex n) (.manifest (wideManifest n)) (wideReceipt n)).files
      (wideReceipt n) (wideManifest n) (wideIndex n) := by
  have sized := (size_wideManifest (m := wideManifest n) rfl (.refl _)).2
  have parsed : Manifest.parse servedSerde (.manifest (wideManifest n)) = .ok (wideManifest n) := by
    refine Manifest.parse_ok.mpr ⟨?_, rfl, wide_valid some_ few⟩
    change JsonText.size (wideManifest n).text ≤ maxManifest
    rw [maxManifest]
    omega
  refine stage_complete sample_named rfl rfl ?_ (show 2 ≤ maxTotal by decide) (by simp [wideReceipt, sampleReceipt]) parsed
    (wideIndex_valid few) fun f member => ?_
  · simp [wideReceipt, wideManifest]
  · obtain ⟨name, named, rfl⟩ := List.mem_map.mp member
    exact ⟨_, if_pos named, rfl, rfl⟩

/-- The files and the commas between them. -/
theorem size_wideFiles (n : Nat) : n * 211 ≤ JsonText.size (JsonText.arr ((wideIndex n).files.map File.text)) ∧
    JsonText.size (JsonText.arr ((wideIndex n).files.map File.text)) ≤ n * 212 + 2 := by
  have files := sum_sizes (g := File.text) fun f member => size_wideFile (n := n) member
  have count : (wideIndex n).files.length = n := by
    rw [wideIndex, List.length_map, length_expectedNames]
    simp [wideManifest]
  rw [JsonText.size_arr, files, List.length_map, count]
  omega

/-- A manifest of 2600 tables is longer than what the reader accepts. -/
theorem wide_long {n : Nat} (many : 2600 ≤ n) :
    maxStoredManifest < servedSerde.length (servedSerde.ofPublished
      (Complete.published servedSerde sampleScope (wideReceipt n) (wideManifest n) (wideIndex n))) := by
  have files := (size_wideFiles n).1
  have source := (size_wideManifest (m := (wideManifest n).sorted) (n := n) rfl (List.perm_insertionSort _ _)).1
  change maxStoredManifest < JsonText.size
    (Complete.published servedSerde sampleScope (wideReceipt n) (wideManifest n) (wideIndex n)).text
  have listed : (Complete.published servedSerde sampleScope (wideReceipt n) (wideManifest n) (wideIndex n)).files =
      (wideIndex n).files := rfl
  have sorted : (Complete.published servedSerde sampleScope (wideReceipt n) (wideManifest n) (wideIndex n)).sourceManifest =
      (wideManifest n).sorted := rfl
  rw [PublishedManifest.text, JsonText.size_obj]
  simp only [List.map_append, List.sum_append, List.map_cons, List.map_nil, List.sum_cons, List.sum_nil, listed, sorted,
    maxStoredManifest]
  omega

/-- Up to 2400 entries the manifest is within what a row can be read with. -/
theorem wide_short {n : Nat} (some_ : 0 < n) (few : n ≤ 2400) :
    servedSerde.length (servedSerde.ofPublished
      (Complete.published servedSerde sampleScope (wideReceipt n) (wideManifest n) (wideIndex n))) ≤ maxStoredManifest := by
  have files := (size_wideFiles n).2
  have source := (size_wideManifest (m := (wideManifest n).sorted) (n := n) rfl (List.perm_insertionSort _ _)).2
  have parts := (wide_complete some_ (by omega)).size_parts sample_valid servedSerde_digests
  change JsonText.size (Complete.published servedSerde sampleScope (wideReceipt n) (wideManifest n) (wideIndex n)).text ≤ _
  rw [maxStoredManifest]
  omega

/-- One published snapshot whose manifest the reader refuses. -/
theorem mirror_unserved : ∃ (verified : Verified servedSerde textEngine sampleScope) (db : Database Doc String),
    commit {} (.publish 20 1 verified) = some db ∧ ∃ row ∈ db.snapshots sampleScope,
      row.contentHash = verified.snapshot.manifest.contentSha256 ∧ row.manifest = verified.snapshot.manifestBytes ∧
      db.document servedSerde sampleScope (some row.contentHash) none = .error .integrity := by
  have complete := wide_complete (n := 2600) (by decide) (by decide)
  obtain ⟨verified, manifest, bytes⟩ := complete.verified (single_there _ _) sample_valid rfl textEngine_values
  obtain ⟨db, done, row, member, hash, stored⟩ := publish_first 20 1 verified fun _ => rfl
  refine ⟨verified, db, done, row, member, hash, stored, ?_⟩
  have whole := reach_whole (Run.Reach.start.next trivial done)
  have valid := PublishedManifest.valid_of_validate verified.intact.passed
  have hashed : hashValid row.contentHash = true := by
    rw [hash, ← valid.content, contentHash, digest]
    exact servedSerde_digests _
  rw [Database.document_of_member valid.supported hashed (whole.distinct _) member (by simp)]
  refine documentOf_long ?_
  rw [stored, bytes]
  exact wide_long (Nat.le_refl _)

/-- A snapshot of 2400 tables is served. -/
theorem mirror_served_many : ∃ db : Database Doc String,
    Run.Reach commit (fun _ (_ : Transaction servedSerde textEngine) => True) {} db ∧
    ∃ row ∈ db.snapshots sampleScope, ∃ p, servedSerde.published row.manifest = some p ∧
      Served servedSerde db sampleScope row p := by
  have complete := wide_complete (n := 2400) (by decide) (by decide)
  obtain ⟨verified, manifest, bytes⟩ := complete.verified (single_there _ _) sample_valid rfl textEngine_values
  obtain ⟨db, done, row, member, hash, stored⟩ := publish_first 20 1 verified fun _ => rfl
  have reach : Run.Reach commit (fun _ (_ : Transaction servedSerde textEngine) => True) {} db :=
    Run.Reach.start.next trivial done
  obtain ⟨p, read, -, -, served⟩ := (mirror_served servedSerde textEngine servedSerde_digests reach).1 sampleScope row member
  refine ⟨db, reach, row, member, p, read, served.mpr ?_⟩
  rw [stored, bytes]
  exact wide_short (by decide) (by decide)

end Wide

end SiriusProxy.Master
