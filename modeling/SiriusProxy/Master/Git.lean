import SiriusProxy.Lib.JsonTokens
import SiriusProxy.Lib.Lines
import SiriusProxy.Lib.OrderedMap
import SiriusProxy.Master.Current

namespace SiriusProxy.Master.Git
open JsonTokens (isBlank)

variable {B : Type}

/-- The errors of `master_git` that preparation, the commit and the recogniser return. -/
inductive Error where
  | ownership
  | locked
  | snapshot
  | git
  | assetVersion
  | notAdoptable
  deriving DecidableEq, Repr

inductive Layout where
  | native
  | indentedRoot
  deriving DecidableEq, Repr

def commandLimit : Nat := 1024 * 1024
def metadataLimit : Nat := 4 * 1024 * 1024
def adoptDepth : Nat := 64
def adoptTreeEntries : Nat := 4096 + 1

def publicationName : String := "sirius-publication.json"
def versionName : String := "version.json"

section Reindent

def newline (depth : Nat) : List UInt8 := 10 :: List.replicate (2 * depth) 32

/-- Where the loop of `reindent` stands: between tokens, inside a string, behind a backslash, or before
the bracket that closes an empty object or array. -/
inductive Scan where
  | plain
  | string
  | escaped
  | closing
  deriving DecidableEq, Repr

def reindentFrom : List UInt8 → Scan → Nat → List UInt8 → Option (List UInt8)
  | [], .plain, depth, out => if depth ≠ 0 ∨ out = [] then none else some (out ++ [10])
  | [], _, _, _ => none
  | b :: rest, .plain, depth, out =>
    if isBlank b then reindentFrom rest .plain depth out
    else if b = 34 then reindentFrom rest .string depth (out ++ [b])
    else if b = 123 ∨ b = 91 then
      let close := if b = 123 then 125 else 93
      if (rest.dropWhile isBlank).head? = some close then reindentFrom rest .closing depth (out ++ [b, close])
      else reindentFrom rest .plain (depth + 1) (out ++ b :: newline (depth + 1))
    else if b = 125 ∨ b = 93 then
      if depth = 0 then none else reindentFrom rest .plain (depth - 1) (out ++ newline (depth - 1) ++ [b])
    else if b = 44 then reindentFrom rest .plain depth (out ++ b :: newline depth)
    else if b = 58 then reindentFrom rest .plain depth (out ++ [b, 32])
    else reindentFrom rest .plain depth (out ++ [b])
  | b :: rest, .string, depth, out =>
    if b = 92 then reindentFrom rest .escaped depth (out ++ [b])
    else if b = 34 then reindentFrom rest .plain depth (out ++ [b])
    else reindentFrom rest .string depth (out ++ [b])
  | b :: rest, .escaped, depth, out => reindentFrom rest .string depth (out ++ [b])
  | b :: rest, .closing, depth, out =>
    if isBlank b then reindentFrom rest .closing depth out else reindentFrom rest .plain depth out

def reindent (input : List UInt8) : Option (List UInt8) := reindentFrom input .plain 0 []

end Reindent

/-- The published manifest without its node-local name and its asset version. -/
structure Metadata where
  schemaVersion : Nat
  scope : Scope
  version : String
  contentSha256 : String
  files : List File
  sourceManifest : Manifest
  deriving DecidableEq, Repr

def metadata (p : PublishedManifest) : Metadata where
  schemaVersion := p.schemaVersion
  scope := p.scope
  version := p.version
  contentSha256 := p.contentSha256
  files := p.files
  sourceManifest := p.sourceManifest

/-- A recorded scope as `serde_json::Value`: a field of another type than a text is `none`, and `extra`
tells whether there are other fields. -/
structure ScopeValue where
  region : Option String
  environment : Option String
  platform : Option String
  extra : Bool
  deriving DecidableEq, Repr

def scopeValue (scope : Scope) : ScopeValue where
  region := some scope.region.name
  environment := some scope.environment
  platform := some scope.platform.name
  extra := false

def regionFromName (name : String) : Option Region :=
  [Region.jp, .hk, .en, .kr, .cn].find? fun region => region.name == name

def platformFromName (name : String) : Option Platform :=
  [Platform.ios, .android].find? fun platform => platform.name == name

/-- `serde_json::from_value` of a scope. -/
def fromValue (value : ScopeValue) : Option Scope :=
  match value.region.bind regionFromName, value.environment, value.platform.bind platformFromName with
  | some region, some environment, some platform => if value.extra then none else some { region, environment, platform }
  | _, _, _ => none

structure Recorded where
  scope : ScopeValue
  version : String
  files : List String
  deriving DecidableEq, Repr

def File.pretty (f : File) : List Char :=
  JsonText.prettyObj 2 [("name", JsonText.str f.name), ("sha256", JsonText.str f.sha256), ("size", JsonText.nat f.size)]

def Entry.pretty (e : Entry) : List Char :=
  JsonText.prettyObj 3 [("hash", JsonText.str e.hash), ("name", JsonText.str e.name), ("size", JsonText.nat e.size)]

def Scope.pretty (scope : Scope) : List Char :=
  JsonText.prettyObj 1 [("environment", JsonText.str scope.environment),
    ("platform", JsonText.str scope.platform.name), ("region", JsonText.str scope.region.name)]

def Manifest.pretty (m : Manifest) : List Char :=
  JsonText.prettyObj 1 [("files", JsonText.prettyArr 2 (m.files.map Entry.pretty)), ("version", JsonText.str m.version)]

/-- `to_vec_pretty` of a value whose maps are ordered by key. -/
def Metadata.pretty (m : Metadata) : List Char :=
  JsonText.prettyObj 0 [("content_sha256", JsonText.str m.contentSha256),
    ("files", JsonText.prettyArr 1 (m.files.map File.pretty)), ("schema_version", JsonText.nat m.schemaVersion),
    ("scope", Scope.pretty m.scope), ("source_manifest", Manifest.pretty m.sourceManifest),
    ("version", JsonText.str m.version)]

def versionText (dataVersion assetVersion : String) : List Char :=
  "\x7b\n  \"dataVersion\": ".toList ++ JsonText.str dataVersion ++ ",\n  \"assetVersion\": ".toList ++
    JsonText.str assetVersion ++ "\n\x7d\n".toList

/-- `serde_json` on the two files of a publication, and the bytes of a document. What it reads from its
own metadata and from an object of two plain strings is what was written. -/
structure Formats (B : Type) extends Serde B where
  bytes : B → List UInt8
  ofBytes : List UInt8 → B
  ofMetadata : Metadata → B
  recorded : B → Option Recorded
  versionDocument : B → Option (String × String)
  recorded_ofMetadata : ∀ m, recorded (ofMetadata m) = some ⟨scopeValue m.scope, m.version, m.files.map File.name⟩
  length_ofMetadata : ∀ m, length (ofMetadata m) = JsonText.size (Metadata.pretty m)
  versionDocument_ofString : ∀ dataVersion assetVersion, dataVersion.toList.all JsonText.isPlain = true →
    assetVersion.toList.all JsonText.isPlain = true →
    versionDocument (ofString (String.ofList (versionText dataVersion assetVersion))) = some (dataVersion, assetVersion)

variable (lib : Formats B)

def versionBytes (dataVersion assetVersion : String) : B :=
  lib.ofString (String.ofList (versionText dataVersion assetVersion))

/-- The staging directory by file name, and the names in the order of the tree. -/
structure Prepared (B : Type) where
  manifest : PublishedManifest
  staging : String → Option B
  names : List String

abbrev Preparing (B α : Type) := Reads.Prog (Root B) (Option (Node B)) Error α

def tableBytes : Layout → B → Option B
  | .native, bytes => some bytes
  | .indentedRoot, bytes => (reindent (lib.bytes bytes)).map lib.ofBytes

/-- The loop of `prepare` over the files of the manifest. -/
def stageTables (layout : Layout) (region : Region) (snapshot : String) :
    List File → (String → Option B) → List String → Preparing B ((String → Option B) × List String)
  | [], staging, names => pure (staging, names)
  | f :: rest, staging, names =>
    if f.name = publicationName ∨ f.name = versionName then .throw .snapshot
    else match stripSuffix f.name.toList ['.', 'j', 's', 'o', 'n'] with
      | none => .throw .snapshot
      | some stem => do
        let document ← ((tableRead lib.toSerde region snapshot (String.ofList stem) f.sha256 true).zoom fun root =>
          root.snapshots snapshot).mapError fun _ => .snapshot
        if lib.length document.bytes != f.size then .throw .snapshot
        else match tableBytes lib layout document.bytes with
          | none => .throw .snapshot
          | some bytes => stageTables layout region snapshot rest (Function.update staging f.name (some bytes)) (names ++ [f.name])

def assetVersion (layout : Layout) (p : PublishedManifest) : Except Error (Option String) :=
  match layout, p.resourceVersion with
  | .native, _ => .ok none
  | .indentedRoot, some version => .ok (some version)
  | .indentedRoot, none => .error .assetVersion

/-- The last file of a publication. -/
def closing (p : PublishedManifest) : Option String → String × B
  | some asset => (versionName, versionBytes lib p.version asset)
  | none => (publicationName, lib.ofMetadata (metadata p))

def finish (p : PublishedManifest) (last : String × B) (staged : (String → Option B) × List String) : Prepared B where
  manifest := p
  staging := Function.update staged.1 last.1 (some last.2)
  names := (staged.2 ++ [last.1]).insertionSort (· ≤ ·)

/-- `prepare`; `owned` is the outcome of `own` on the state directory. -/
def prepare (owned : Except Error Unit) (scope : Scope) (layout : Layout) : Preparing B (Prepared B) := do
  .done owned
  let document ← (manifest lib.toSerde none scope).mapError fun _ => .snapshot
  match lib.published document.bytes with
  | none => .throw .snapshot
  | some p =>
    if !hashValid p.contentSha256 then .throw .snapshot
    else match assetVersion layout p with
      | .error e => .throw e
      | .ok asset => do
        let staged ← stageTables lib layout p.scope.region p.snapshot p.files (fun _ => none) []
        pure (finish p (closing lib p asset) staged)

def isOid (value : List Char) : Bool := decide (value.length = 40) && value.all isLowerHex

structure TreeEntry where
  mode : String
  kind : String
  oid : String
  name : String
  deriving DecidableEq, Repr

/-- A commit with its `%s`, as `from_utf8_lossy` shows it, and the length of the original. -/
structure Commit where
  tree : String
  parents : List String
  subject : List Char
  subjectBytes : Nat
  oneLine : '\n' ∉ subject

/-- A repository as Git shows it: every commit is there with its parents, and names are object ids. -/
structure Repository (B : Type) where
  blobs : String → Option B
  trees : String → Option (List TreeEntry)
  commits : String → Option Commit
  named : ∀ oid commit, commits oid = some commit → isOid oid.toList = true
  closed : ∀ oid commit parent, commits oid = some commit → parent ∈ commit.parents → (commits parent).isSome = true

/-- The ids under which Git stores objects. -/
structure Ids (B : Type) where
  blob : B → String
  tree : List TreeEntry → String
  commit : Commit → String

section Commit
variable (ids : Ids B)

/-- The lines of `tree_input`; the chunks of 64 names only keep the command lines short. -/
def treeInput (staging : String → Option B) : List String → Except Error (List TreeEntry)
  | [] => .ok []
  | name :: rest =>
    match staging name with
    | none => .error .git
    | some bytes =>
      if !isOid (ids.blob bytes).toList then .error .git
      else match treeInput staging rest with
        | .error e => .error e
        | .ok entries => .ok ({ mode := "100644", kind := "blob", oid := ids.blob bytes, name } :: entries)

/-- `git mktree` orders the entries by name. -/
def mktree (input : List TreeEntry) : List TreeEntry := input.insertionSort fun a b => a.name ≤ b.name

/-- `%s` of a first paragraph: its lines on one line. -/
def subjectOf (paragraph : List Char) : List Char := paragraph.map fun c => if c = '\n' then ' ' else c

theorem subjectOf_oneLine (paragraph : List Char) : '\n' ∉ subjectOf paragraph := by
  intro member
  obtain ⟨c, -, same⟩ := List.mem_map.mp member
  split at same
  · cases same
  · rename_i other
    exact other same

def paragraph (p : PublishedManifest) : List Char :=
  "Sirius Master ".toList ++ p.scope.region.name.toList ++ ' ' :: p.version.toList

/-- `git commit-tree` with the subject of the publication; its trailer is not read back. -/
def commitTree (p : PublishedManifest) (tree : String) (parent : Option String) : Commit where
  tree := tree
  parents := parent.toList
  subject := subjectOf (paragraph p)
  subjectBytes := JsonText.size (subjectOf (paragraph p))
  oneLine := subjectOf_oneLine _

structure Receipt where
  commit : String
  contentSha256 : String
  changed : Bool
  deriving DecidableEq, Repr

/-- The object that `commit_internal` writes last. -/
def publicationCommit (prepared : Prepared B) (parent : Option String) (entries : List TreeEntry) : Commit :=
  commitTree prepared.manifest (ids.tree (mktree entries)) parent

/-- `commit_internal` once `parent` is the local branch, without the push. -/
def commitInternal (prepared : Prepared B) (parent : Option String) (repository : Repository B) : Except Error Receipt := do
  let entries ← treeInput ids prepared.staging prepared.names
  let tree := ids.tree (mktree entries)
  if !isOid tree.toList then .error .git
  else match parent.map repository.commits with
    | some none => .error .git
    | some (some old) =>
      if old.tree = tree then
        .ok { commit := parent.getD "", contentSha256 := prepared.manifest.contentSha256, changed := false }
      else create (publicationCommit ids prepared parent entries)
    | none => create (publicationCommit ids prepared parent entries)
where
  create (commit : Commit) : Except Error Receipt :=
    if !isOid (ids.commit commit).toList then .error .git
    else .ok { commit := ids.commit commit, contentSha256 := prepared.manifest.contentSha256, changed := true }

end Commit

section Recognize

/-- The output of a command that succeeded, up to its limit. -/
def command {α : Type} (limit size : Nat) (result : α) : Except Error α :=
  if limit < size then .error .git else .ok result

/-- `git rev-list --first-parent --max-count`. -/
def firstParents (commits : String → Option Commit) : Nat → String → Option (List (String × Commit))
  | 0, _ => some []
  | count + 1, oid =>
    match commits oid with
    | none => none
    | some commit => match commit.parents with
      | [] => some [(oid, commit)]
      | parent :: _ => (firstParents commits count parent).map ((oid, commit) :: ·)

/-- The lines of `--format=%H%x09%s`, each entry behind its `commit` line. -/
def logLines (log : List (String × Commit)) : List (List Char) :=
  log.flatMap fun entry => ["commit ".toList ++ entry.1.toList, entry.1.toList ++ '\t' :: entry.2.subject]

def logText (log : List (String × Commit)) : List Char := (logLines log).flatMap fun line => line ++ ['\n']

def logBytes (log : List (String × Commit)) : Nat :=
  (log.map fun entry => 2 * JsonText.size entry.1.toList + entry.2.subjectBytes + 10).sum

def newest : List (List Char) → Except Error (Option (List Char × List Char))
  | [] => .ok none
  | line :: rest =>
    if (line.dropPrefix? "commit ".toList).any isOid then newest rest
    else match Lines.splitOnce '\t' line with
      | none => .error .git
      | some (commit, subject) =>
        if !isOid commit then .error .git
        else match subject.dropPrefix? "Sirius Master ".toList with
          | some rest => .ok (some (commit, rest))
          | none => newest rest

/-- `git ls-tree -z`. -/
def listing (tree : List TreeEntry) : List Char :=
  (tree.map fun e => e.mode.toList ++ ' ' :: (e.kind.toList ++ ' ' :: (e.oid.toList ++ '\t' :: e.name.toList))).flatMap
    fun line => line ++ ['\x00']

/-- `char::is_control`. -/
def isControl (c : Char) : Bool := decide (c.toNat < 32) || (decide (127 ≤ c.toNat) && decide (c.toNat < 160))

def acceptedName (name : List Char) : Bool :=
  decide (5 < JsonText.size name) && ['.', 'j', 's', 'o', 'n'].isSuffixOf name && name.head? != some '.' &&
    name.all fun c => c != '/' && c != '\\' && !isControl c

def readEntries : List (List Char) → OrderedMap String String → Except Error (OrderedMap String String)
  | [], entries => .ok entries
  | entry :: rest, entries =>
    match Lines.splitOnce '\t' entry with
    | none => .error .notAdoptable
    | some (header, name) =>
      match (header.dropPrefix? "100644 blob ".toList).filter isOid with
      | none => .error .notAdoptable
      | some blob =>
        if decide (adoptTreeEntries ≤ entries.size) || !acceptedName name then .error .notAdoptable
        else readEntries rest (entries.insert (String.ofList name) (String.ofList blob))

def readListing (text : List Char) : Except Error (OrderedMap String String) :=
  readEntries (((Lines.pieces '\x00' text).1 ++ [(Lines.pieces '\x00' text).2]).filter fun piece => !piece.isEmpty) ∅

/-- The deprecated alias of `hk` in a recorded scope. -/
def canonical (value : ScopeValue) : ScopeValue :=
  { value with region := value.region.map fun name => if name = "tw" then "hk" else name }

def recognizeNative (repository : Repository B) (scope : Scope) (version : String) (entries : OrderedMap String String) :
    Except Error Unit :=
  if (entries.get? versionName).isSome then .error .notAdoptable
  else match entries.get? publicationName with
    | none => .error .notAdoptable
    | some blob => match repository.blobs blob with
      | none => .error .git
      | some bytes => do
        let bytes ← command metadataLimit (lib.length bytes) bytes
        match lib.recorded bytes with
        | none => .error .notAdoptable
        | some recorded => match fromValue (canonical recorded.scope) with
          | none => .error .notAdoptable
          | some recordedScope =>
            if recordedScope != scope || recorded.version != version ||
                recorded.files.insertionSort (· ≤ ·) != (entries.erase publicationName).entries.map (·.1) then
              .error .notAdoptable
            else .ok ()

variable [DecidableEq B]

def recognizeIndented (repository : Repository B) (version : String) (entries : OrderedMap String String) :
    Except Error Unit :=
  if (entries.get? publicationName).isSome then .error .notAdoptable
  else match entries.get? versionName with
    | none => .error .notAdoptable
    | some blob => match repository.blobs blob with
      | none => .error .git
      | some bytes => do
        let bytes ← command commandLimit (lib.length bytes) bytes
        match lib.versionDocument bytes with
        | none => .error .notAdoptable
        | some (dataVersion, assetVersion) =>
          if dataVersion != version || decide (bytes ≠ versionBytes lib dataVersion assetVersion) then .error .notAdoptable
          else .ok ()

def recognizeTree (repository : Repository B) (scope : Scope) (layout : Layout) (commit version : String) :
    Except Error Unit :=
  match (repository.commits commit).bind fun found => repository.trees found.tree with
  | none => .error .git
  | some tree => do
    let text ← command commandLimit (JsonText.size (listing tree)) (listing tree)
    let entries ← readListing text
    match layout with
    | .native => recognizeNative lib repository scope version entries
    | .indentedRoot => recognizeIndented lib repository version entries

def recognize (repository : Repository B) (scope : Scope) (layout : Layout) (head : String) : Except Error (String × String) :=
  match firstParents repository.commits adoptDepth head with
  | none => .error .git
  | some log => do
    let text ← command commandLimit (logBytes log) (logText log)
    match ← newest (Lines.lines text) with
    | none => .error .notAdoptable
    | some (commit, rest) => match Lines.splitOnce ' ' rest with
      | none => .error .notAdoptable
      | some (region, version) =>
        if Region.fromRecordedName (String.ofList region) != some scope.region || !safeVersion (String.ofList version) then
          .error .notAdoptable
        else do
          recognizeTree lib repository scope layout (String.ofList commit) (String.ofList version)
          .ok (String.ofList commit, String.ofList version)

end Recognize

end SiriusProxy.Master.Git
