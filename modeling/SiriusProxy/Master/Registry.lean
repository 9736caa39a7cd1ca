import SiriusProxy.Master.Manifest
import SiriusProxy.Lib.Reads

namespace SiriusProxy.Master

structure File where
  name : String
  size : Nat
  sha256 : String
  deriving DecidableEq, Repr

structure Inventory where
  schemaVersion : Nat
  version : String
  files : List File
  deriving DecidableEq, Repr

structure Scope where
  region : Region
  environment : String
  platform : Platform
  deriving DecidableEq, Repr

structure PublishedManifest where
  schemaVersion : Nat
  scope : Scope
  snapshot : String
  version : String
  resourceVersion : Option String
  contentSha256 : String
  files : List File
  sourceManifest : Manifest
  deriving DecidableEq, Repr

structure Publication where
  schemaVersion : Nat
  snapshot : String
  previousSnapshot : Option String
  publishedAt : Instant
  deriving DecidableEq, Repr

structure RetentionRecord where
  schemaVersion : Nat
  boundary : String
  deriving DecidableEq, Repr

inductive Source where
  | localImport
  | remote
  | registry
  deriving DecidableEq, Repr

def Source.name : Source → String
  | .localImport => "local-import"
  | .remote => "remote"
  | .registry => "registry"

structure ImportReceipt where
  version : String
  snapshot : String
  tables : Nat
  jsonBytes : Nat
  source : Source
  region : Region
  resourceVersion : Option String
  deriving DecidableEq, Repr

/-- The fields of a receipt that readers look up in it; a field of another type than the reader asks
for is `none`, and the last two may also be absent. -/
structure ReceiptValue where
  version : Option String
  snapshot : Option String
  tables : Option Nat
  source : Option String
  resourceVersion : Option (Option String)
  region : Option (Option String)
  deriving DecidableEq, Repr

def ImportReceipt.value (r : ImportReceipt) : ReceiptValue where
  version := some r.version
  snapshot := some r.snapshot
  tables := some r.tables
  source := some r.source.name
  resourceVersion := r.resourceVersion.map some
  region := some (some r.region.name)

/-- What `content_hash` covers. -/
structure Content where
  scope : Scope
  sourceManifest : Manifest
  files : List File
  deriving DecidableEq, Repr

def File.text (f : File) : List Char :=
  JsonText.obj [("name", JsonText.str f.name), ("size", JsonText.nat f.size), ("sha256", JsonText.str f.sha256)]

def Inventory.text (i : Inventory) : List Char :=
  JsonText.obj [("schema_version", JsonText.nat i.schemaVersion), ("version", JsonText.str i.version),
    ("files", JsonText.arr (i.files.map File.text))]

def optionalField (key : String) (value : Option String) : List (String × List Char) :=
  match value with
  | none => []
  | some value => [(key, JsonText.str value)]

def ImportReceipt.text (r : ImportReceipt) : List Char :=
  JsonText.obj ([("version", JsonText.str r.version), ("snapshot", JsonText.str r.snapshot),
    ("tables", JsonText.nat r.tables), ("json_bytes", JsonText.nat r.jsonBytes), ("source", JsonText.str r.source.name),
    ("region", JsonText.str r.region.name)] ++ optionalField "resource_version" r.resourceVersion)

def nullable (value : Option String) : List Char :=
  match value with
  | none => ['n', 'u', 'l', 'l']
  | some value => JsonText.str value

def Publication.text (stamp : Instant → String) (p : Publication) : List Char :=
  JsonText.obj [("schema_version", JsonText.nat p.schemaVersion), ("snapshot", JsonText.str p.snapshot),
    ("previous_snapshot", nullable p.previousSnapshot), ("published_at", JsonText.str (stamp p.publishedAt))]

def RetentionRecord.text (r : RetentionRecord) : List Char :=
  JsonText.obj [("schema_version", JsonText.nat r.schemaVersion), ("boundary", JsonText.str r.boundary)]

/-- Byte strings with SHA-256 and `serde_json`. What `serde_json` reads from its own text is what was
written, its text has the length of the compact text, and no other text of a manifest is shorter.
`stamp` is the RFC 3339 text of a time. -/
structure Serde (B : Type) where
  length : B → Nat
  sha256 : B → String
  ofString : String → B
  utf8 : B → Option String
  ofManifest : Manifest → B
  manifest : B → Option Manifest
  ofReceipt : ImportReceipt → B
  receipt : B → Option ReceiptValue
  ofInventory : Inventory → B
  inventory : B → Option Inventory
  ofPublication : Publication → B
  publication : B → Option Publication
  ofRetention : RetentionRecord → B
  retention : B → Option RetentionRecord
  ofPublished : PublishedManifest → B
  published : B → Option PublishedManifest
  ofContent : Content → B
  validJson : B → Bool
  stamp : Instant → String
  utf8_ofString : ∀ s, utf8 (ofString s) = some s
  length_ofString : ∀ s, length (ofString s) = s.utf8ByteSize
  manifest_ofManifest : ∀ m, manifest (ofManifest m) = some m
  length_ofManifest : ∀ m, length (ofManifest m) = JsonText.size m.text
  manifest_shortest : ∀ b m, manifest b = some m → length (ofManifest m) ≤ length b
  receipt_ofReceipt : ∀ r, receipt (ofReceipt r) = some r.value
  length_ofReceipt : ∀ r, length (ofReceipt r) = JsonText.size r.text
  inventory_ofInventory : ∀ i, inventory (ofInventory i) = some i
  length_ofInventory : ∀ i, length (ofInventory i) = JsonText.size i.text
  publication_ofPublication : ∀ p, publication (ofPublication p) = some p
  length_ofPublication : ∀ p, length (ofPublication p) = JsonText.size (p.text stamp)
  stamp_short : ∀ t, JsonText.size (JsonText.str (stamp t)) ≤ 64
  retention_ofRetention : ∀ r, retention (ofRetention r) = some r
  length_ofRetention : ∀ r, length (ofRetention r) = JsonText.size r.text
  published_ofPublished : ∀ p, published (ofPublished p) = some p

variable {B : Type} (lib : Serde B)

def Manifest.parse (bytes : B) : Except MasterError Manifest :=
  if maxManifest < lib.length bytes then .error .limit
  else match lib.manifest bytes with
    | none => .error .format
    | some m => match m.check with
      | .error e => .error e
      | .ok () => .ok m

def digest (bytes : B) : String := lib.sha256 bytes

def hashValid (hash : String) : Bool := decide (hash.utf8ByteSize = 64) && hash.toList.all isLowerHex

/-- `str::replace(".bin", ".json")`. -/
def replaceBin : List Char → List Char
  | '.' :: 'b' :: 'i' :: 'n' :: rest => '.' :: 'j' :: 's' :: 'o' :: 'n' :: replaceBin rest
  | c :: rest => c :: replaceBin rest
  | [] => []

def jsonName (name : String) : String := String.ofList (replaceBin name.toList)

/-- The loop of `Inventory::validate` over the files and the expected names. -/
def checkFiles : List (File × String) → Nat → Except MasterError Nat
  | [], total => .ok total
  | (entry, name) :: rest, total =>
    if entry.name != name || entry.size == 0 || decide (maxJson < entry.size) || !hashValid entry.sha256 then
      .error .format
    else checkFiles rest (total + entry.size)

/-- The sum of at most 4096 sizes of at most 64 MiB fits `u64`. -/
def Inventory.validate (i : Inventory) (source : Manifest) : Except MasterError Unit :=
  if i.schemaVersion != 1 || i.version != source.version || i.files.length != source.files.length then .error .format
  else
    let expected := (source.files.map fun e => jsonName e.name).insertionSort (· ≤ ·)
    match checkFiles (i.files.zip expected) 0 with
    | .error e => .error e
    | .ok total => if maxTotal < total then .error .limit else .ok ()

def contentHash (scope : Scope) (source : Manifest) (files : List File) : String :=
  digest lib (lib.ofContent { scope, sourceManifest := source, files })

/-- `windows(2)` finds no pair out of order. -/
def strictlyOrdered : List Entry → Bool
  | a :: b :: rest => decide (a.name < b.name) && strictlyOrdered (b :: rest)
  | _ => true

def PublishedManifest.validate (p : PublishedManifest) (scope : Scope) : Except MasterError Unit :=
  if p.schemaVersion != 1 || p.scope != scope || !scope.region.masterSupported || !startsWith p.snapshot "master-" ||
      !safeComponent p.snapshot || p.version != p.sourceManifest.version ||
      p.resourceVersion.any (fun v => !safeVersion v) then .error .format
  else match Manifest.parse lib (lib.ofManifest p.sourceManifest) with
    | .error e => .error e
    | .ok source =>
      if !strictlyOrdered source.files then .error .format
      else match Inventory.validate { schemaVersion := 1, version := p.version, files := p.files } source with
        | .error e => .error e
        | .ok () => if contentHash lib scope source p.files != p.contentSha256 then .error .integrity else .ok ()

end SiriusProxy.Master
