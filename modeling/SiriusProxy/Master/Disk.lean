import SiriusProxy.Master.Registry

namespace SiriusProxy.Master
variable {B : Type}

/-- What a path shows. -/
inductive Node (B : Type) where
  | file (bytes : B)
  | directory
  | other

inductive Place (B : Type) where
  | directory (files : String → Option (Node B))
  | other

/-- The output directory: the pointer, the retention record and the entries named like snapshots.
Staging and trash have names that no reader accepts. -/
structure Root (B : Type) where
  current : Option (Node B) := none
  retention : Option (Node B) := none
  snapshots : String → Option (Place B) := fun _ => none

def Place.self : Option (Place B) → Option (Node B)
  | none => none
  | some (.directory _) => some .directory
  | some .other => some .other

def Place.at (name : String) : Option (Place B) → Option (Node B)
  | some (.directory files) => files name
  | _ => none

@[simp] theorem Place.self_none : Place.self (none : Option (Place B)) = none := rfl

@[simp] theorem Place.at_none (name : String) : Place.at name (none : Option (Place B)) = none := rfl

/-- A reader of the output directory, and a reader inside one snapshot. -/
abbrev Reader (B α : Type) := Reads.Prog (Root B) (Option (Node B)) MasterError α

abbrev Look (B α : Type) := Reads.Prog (Option (Place B)) (Option (Node B)) MasterError α

open Reads (eval run)

variable (lib : Serde B) {σ : Type}

def readBounded (path : σ → Option (Node B)) (limit : Nat) : Reads.Prog σ (Option (Node B)) MasterError B :=
  .look path fun
    | none => .throw (.io true)
    | some (.file bytes) => if limit < lib.length bytes then .throw .limit else pure bytes
    | some _ => .throw (.io false)

def regular (path : σ → Option (Node B)) (limit : Nat) : Reads.Prog σ (Option (Node B)) MasterError B :=
  .look path fun
    | none => .throw (.io true)
    | some (.file _) => readBounded lib path limit
    | some _ => .throw .format

def snapshotDirectory (snapshot : String) : Look B Unit :=
  if !startsWith snapshot "master-" || !safeComponent snapshot then .throw .notFound
  else .look Place.self fun
    | none => .throw .notFound
    | some .directory => pure ()
    | some _ => .throw .format

def recordedResourceVersion (receipt : ReceiptValue) : Except MasterError (Option String) :=
  match receipt.resourceVersion with
  | none => .ok none
  | some none => .error .format
  | some (some value) => if safeVersion value then .ok (some value) else .error .format

def recordedRegion (receipt : ReceiptValue) : Except MasterError Region :=
  match receipt.region with
  | none => .ok .jp
  | some none => .error .format
  | some (some name) =>
    match (Region.fromRecordedName name).filter Region.masterSupported with
    | none => .error .format
    | some region => .ok region

structure Provenance where
  source : Manifest
  resourceVersion : Option String
  region : Region
  deriving DecidableEq, Repr

/-- The checks of `source_with_provenance` on the parsed files. -/
def provenance (snapshot : String) (source : Manifest) (receipt : ReceiptValue) : Except MasterError Provenance :=
  if receipt.version != some source.version || receipt.snapshot != some snapshot ||
      receipt.tables != some source.files.length ||
      !receipt.source.any (fun source => [Source.localImport, .remote, .registry].any (·.name == source)) then
    .error .format
  else
    match recordedResourceVersion receipt, recordedRegion receipt with
    | .ok resourceVersion, .ok region => .ok { source, resourceVersion, region }
    | _, _ => .error .format

def sourceWithProvenance (snapshot : String) : Look B Provenance := do
  let bytes ← regular lib (Place.at "MasterManifest.json") maxManifest
  let source ← .done (Manifest.parse lib bytes)
  let bytes ← regular lib (Place.at "receipt.json") 4096
  match lib.receipt bytes with
  | none => .throw .format
  | some receipt => .done (provenance snapshot source receipt)

def file (name : String) (bytes : B) : File where
  name := name
  size := lib.length bytes
  sha256 := digest lib bytes

def sortFiles (files : List File) : List File := files.insertionSort fun a b => a.name ≤ b.name

/-- The loop over the tables of a snapshot without `tables.json`. -/
def indexTables : List Entry → Nat → List File → Look B (List File)
  | [], _, files => pure files
  | entry :: rest, total, files => do
    let bytes ← regular lib (Place.at (jsonName entry.name)) maxJson
    let total := total + lib.length bytes
    if maxTotal < total then .throw .limit
    else if !lib.validJson bytes then .throw .format
    else indexTables rest total (files ++ [file lib (jsonName entry.name) bytes])

def inventoryIndexed : Look B Inventory := do
  let bytes ← regular lib (Place.at "tables.json") maxIndex
  match lib.inventory bytes with
  | none => .throw .format
  | some value => pure value

def inventoryComputed (source : Manifest) : Look B Inventory := do
  let files ← indexTables lib source.files 0 []
  pure { schemaVersion := 1, version := source.version, files := sortFiles files }

def inventoryChecked (source : Manifest) (value : Inventory) : Look B Inventory := do
  .done (value.validate source)
  pure value

def inventory (source : Manifest) : Look B Inventory :=
  .look (Place.at "tables.json") fun
    | some _ => inventoryIndexed lib >>= inventoryChecked source
    | none => inventoryComputed lib source >>= inventoryChecked source

def isEnvironmentChar (c : Char) : Bool := isAsciiAlphanumeric c || c == '-'

def Scope.valid (scope : Scope) : Bool :=
  scope.region.masterSupported && scope.environment != "" && decide (scope.environment.utf8ByteSize ≤ 256) &&
    scope.environment.toList.all isEnvironmentChar

structure Document (B : Type) where
  bytes : B
  etag : String
  version : String

def published (scope : Scope) (snapshot : String) (p : Provenance) (i : Inventory) : PublishedManifest where
  schemaVersion := 1
  scope := scope
  snapshot := snapshot
  version := p.source.version
  resourceVersion := p.resourceVersion
  contentSha256 := contentHash lib scope p.source.sorted i.files
  files := i.files
  sourceManifest := p.source.sorted

def document (manifest : PublishedManifest) : Document B where
  bytes := lib.ofPublished manifest
  etag := "\"" ++ digest lib (lib.ofPublished manifest) ++ "\""
  version := manifest.version

/-- `manifest` from the snapshot directory on. -/
def manifestOf (snapshot : String) (scope : Scope) : Look B (Document B) := do
  snapshotDirectory snapshot
  let p ← sourceWithProvenance lib snapshot
  if p.region != scope.region then .throw .format
  else
    let i ← inventory lib p.source.sorted
    pure (document lib (published lib scope snapshot p i))

def manifestIn (snapshot : String) (scope : Scope) : Look B (Document B) :=
  if !scope.valid then .throw .format else manifestOf lib snapshot scope

def currentSnapshot : Reader B String := do
  let bytes ← regular lib Root.current 128
  match lib.utf8 bytes with
  | none => .throw .format
  | some snapshot =>
    (snapshotDirectory snapshot).zoom fun root => root.snapshots snapshot
    pure snapshot

def manifest (snapshot : Option String) (scope : Scope) : Reader B (Document B) :=
  if !scope.valid then .throw .format
  else do
    let snapshot ← match snapshot with
      | some v => pure v
      | none => currentSnapshot lib
    (manifestOf lib snapshot scope).zoom fun root => root.snapshots snapshot

/-- The check of a publication record against the snapshots already visited. -/
def Publication.accepted (record : Publication) (snapshot : String) (visited : List String) : Bool :=
  record.schemaVersion == 1 && record.snapshot == snapshot &&
    record.previousSnapshot.all fun previous =>
      startsWith previous "master-" && safeComponent previous && !visited.contains previous

/-- `publication` once the read of `publication.json` has ended. -/
def publicationRead (snapshot : String) (visited : List String) : Except MasterError B → Look B (Option Publication)
  | .ok bytes => match lib.publication bytes with
    | none => .throw .format
    | some record => if record.accepted snapshot visited then pure (some record) else .throw .format
  | .error (.io true) => pure none
  | .error e => .throw e

def publication (snapshot : String) (visited : List String) : Look B (Option Publication) :=
  (regular lib (Place.at "publication.json") 4096).attempt >>= publicationRead lib snapshot visited

def chainStep (scope : Scope) (snapshot : String) (visited : List String) :
    Look B (Document B × Option Publication) := do
  snapshotDirectory snapshot
  let document ← manifestIn lib snapshot scope
  let record ← publication lib snapshot visited
  match record with
  | some record => pure (document, some record)
  | none =>
    snapshotDirectory snapshot
    pure (document, none)

def committed (snapshot : String) : Look B Provenance := do
  snapshotDirectory snapshot
  sourceWithProvenance lib snapshot

def predecessorRead : Except MasterError B → Reader B (Option String)
  | .error (.io true) => pure none
  | .error e => .throw e
  | .ok pointer => match lib.utf8 pointer with
    | none => .throw .format
    | some snapshot => do
      let _ ← (committed lib snapshot).zoom fun root => root.snapshots snapshot
      pure (some snapshot)

def predecessor : Reader B (Option String) :=
  (regular lib Root.current 128).attempt >>= predecessorRead lib

def snapshotRegion (snapshot : String) : Reader B Region := do
  let p ← (committed lib snapshot).zoom fun root => root.snapshots snapshot
  pure p.region

def retentionRead : Except MasterError B → Reader B (Option String)
  | .error (.io true) => pure none
  | .error e => .throw e
  | .ok bytes => match lib.retention bytes with
    | none => .throw .format
    | some record =>
      if record.schemaVersion != 1 || !startsWith record.boundary "master-" || !safeComponent record.boundary then
        .throw .format
      else pure (some record.boundary)

def retentionBoundary : Reader B (Option String) :=
  (regular lib Root.retention 4096).attempt >>= retentionRead lib

end SiriusProxy.Master
