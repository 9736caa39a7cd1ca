import SiriusProxy.Lib.Rows
import SiriusProxy.Master.Sync

namespace SiriusProxy.Master
open Reads (eval)

variable {B : Type}

def Scope.text (scope : Scope) : List Char :=
  JsonText.obj [("region", JsonText.str scope.region.name), ("environment", JsonText.str scope.environment),
    ("platform", JsonText.str scope.platform.name)]

def PublishedManifest.text (p : PublishedManifest) : List Char :=
  JsonText.obj ([("schema_version", JsonText.nat p.schemaVersion), ("scope", p.scope.text),
    ("snapshot", JsonText.str p.snapshot), ("version", JsonText.str p.version)] ++
    optionalField "resource_version" p.resourceVersion ++
    [("content_sha256", JsonText.str p.contentSha256), ("files", JsonText.arr (p.files.map File.text)),
      ("source_manifest", p.sourceManifest.text)])

structure MasterDocument (B : Type) where
  version : String
  sha256 : String
  bytes : B

/-- The document that is served for the whole snapshot. -/
structure Status where
  version : String
  snapshot : String
  source : String
  region : Region
  tables : List String
  resourceVersion : Option String
  deriving DecidableEq, Repr

/-- `trim_end_matches(".bin")` on the reversed characters. -/
def trimBin : List Char → List Char
  | 'n' :: 'i' :: 'b' :: '.' :: rest => trimBin rest
  | cs => cs

variable (lib : Serde B) (ofStatus : Status → B)

def readTable (manifest : Manifest) (table : String) : Look B (MasterDocument B × Bool) :=
  if !safeComponent table || !manifest.files.any (fun f => f.name == table ++ ".bin") then .throw .notFound
  else do
    let bytes ← readBounded lib (Place.at (table ++ ".json")) maxJson
    let indexed ← verifyIndexedDigest lib manifest table (lib.length bytes) (digest lib bytes)
    pure ({ version := manifest.version, sha256 := digest lib bytes, bytes }, indexed)

def status (manifest : Manifest) (snapshot : String) (region : Region) (receipt : ReceiptValue) :
    Except MasterError (MasterDocument B) :=
  match receipt.source.filter fun source => [Source.localImport, .remote, .registry].any (·.name == source) with
  | none => .error .format
  | some source =>
    if receipt.version != some manifest.version || receipt.snapshot != some snapshot then .error .format
    else match recordedResourceVersion receipt with
      | .error e => .error e
      | .ok resourceVersion =>
        let bytes := ofStatus { version := manifest.version, snapshot, source, region, resourceVersion,
                                tables := manifest.files.map fun f => String.ofList (trimBin f.name.toList.reverse).reverse }
        .ok { version := manifest.version, sha256 := digest lib bytes, bytes }

/-- `read_current_inner` once `CURRENT` is read; the second part of the result tells whether an index was checked. -/
def readSnapshot (snapshot : String) (table : Option String) (expected : Option Region) : Look B (MasterDocument B × Bool) := do
  let text ← readBounded lib (Place.at "MasterManifest.json") maxManifest
  let manifest ← .done (Manifest.parse lib text)
  let bytes ← readBounded lib (Place.at "receipt.json") 4096
  match lib.receipt bytes with
  | none => .throw .format
  | some receipt => do
    let region ← .done (recordedRegion receipt)
    if expected.any (· != region) then .throw .format
    else match table with
      | some table => readTable lib manifest table
      | none => do
        let document ← .done (status lib ofStatus manifest snapshot region receipt)
        pure (document, false)

def readCurrentInner (table : Option String) (expected : Option Region) : Reader B (MasterDocument B × Bool) := do
  let pointer ← readBounded lib Root.current 128
  match lib.utf8 pointer with
  | none => .throw .format
  | some snapshot =>
    if !startsWith snapshot "master-" || !safeComponent snapshot then .throw .format
    else (readSnapshot lib ofStatus snapshot table expected).zoom fun root => root.snapshots snapshot

def readCurrentIn (table : Option String) (region : Region) : Reader B (MasterDocument B) := do
  let (document, _) ← readCurrentInner lib ofStatus table (some region)
  pure document

theorem size_scope {scope : Scope} (valid : scope.valid = true) : JsonText.size scope.text ≤ 314 := by
  simp only [Scope.valid, Bool.and_eq_true, decide_eq_true_eq] at valid
  have plain : scope.environment.toList.all JsonText.isPlain = true := by
    refine all_plain (fun c ok => isPlain_of_safe ?_) valid.2
    simp only [isEnvironmentChar, isSafeChar, Bool.or_eq_true] at ok ⊢
    exact Or.inl ok
  have environmentSize := JsonText.size_str_plain plain
  have regionSize := size_region scope.region
  have platformSize : JsonText.size (JsonText.str scope.platform.name) ≤ 9 := by cases scope.platform <;> decide
  have k1 : JsonText.size (JsonText.str "region") = 8 := rfl
  have k2 : JsonText.size (JsonText.str "environment") = 13 := rfl
  have k3 : JsonText.size (JsonText.str "platform") = 10 := rfl
  rw [Scope.text, JsonText.size_obj]
  simp only [List.map_cons, List.map_nil, List.sum_cons, List.sum_nil, List.length_cons, List.length_nil]
  omega

/-- Besides its files and its source a manifest is short. -/
theorem size_published {p : PublishedManifest} (schema : p.schemaVersion = 1) (scope : p.scope.valid = true)
    (snapshot : safeComponent p.snapshot = true) (version : safeVersion p.version = true)
    (resource : ∀ v, p.resourceVersion = some v → safeVersion v = true) (hash : hashValid p.contentSha256 = true) :
    JsonText.size p.text ≤ JsonText.size (JsonText.arr (p.files.map File.text)) + JsonText.size p.sourceManifest.text + 2048 := by
  have schemaSize := size_schema schema
  have scopeSize := size_scope scope
  have snapshotSize := size_safeComponent snapshot
  have versionSize := size_safeVersion version
  have resourceSize := size_optionalField "resource_version" resource
  have hashSize := size_hashValid hash
  have fields : (optionalField "resource_version" p.resourceVersion).length ≤ 1 := by
    cases p.resourceVersion <;> simp [optionalField]
  have k1 : JsonText.size (JsonText.str "schema_version") = 16 := rfl
  have k2 : JsonText.size (JsonText.str "scope") = 7 := rfl
  have k3 : JsonText.size (JsonText.str "snapshot") = 10 := rfl
  have k4 : JsonText.size (JsonText.str "version") = 9 := rfl
  have k5 : JsonText.size (JsonText.str "resource_version") = 18 := rfl
  have k6 : JsonText.size (JsonText.str "content_sha256") = 16 := rfl
  have k7 : JsonText.size (JsonText.str "files") = 7 := rfl
  have k8 : JsonText.size (JsonText.str "source_manifest") = 17 := rfl
  rw [PublishedManifest.text, JsonText.size_obj]
  simp only [List.map_append, List.sum_append, List.map_cons, List.map_nil, List.sum_cons, List.sum_nil,
    List.length_append, List.length_cons, List.length_nil]
  omega

/-- The field of an index that lists its files is shorter than the index. -/
theorem size_files {i : Inventory} {source : Manifest} (valid : i.Valid source) (manifest : source.Valid) :
    JsonText.size (JsonText.arr (i.files.map File.text)) ≤ maxIndex := by
  have whole := size_inventory valid manifest
  rw [Inventory.text, JsonText.size_obj] at whole
  simp only [List.map_cons, List.map_nil, List.sum_cons, List.sum_nil] at whole
  omega

variable {lib} {ofStatus} {root after : Root B} {scope : Scope} {files : String → Option (Node B)} {receipt : ImportReceipt}
  {source : Manifest} {index : Inventory}

theorem Complete.size_parts (complete : Complete lib files receipt source index) (valid : scope.valid = true)
    (digests : ∀ bytes, hashValid (lib.sha256 bytes) = true) :
    JsonText.size (Complete.published lib scope receipt source index).text ≤
      JsonText.size (JsonText.arr (index.files.map File.text)) + JsonText.size source.sorted.text + 2048 :=
  Master.size_published rfl valid (safe_of_named complete.named) complete.source_valid.version complete.resource (digests _)

/-- The parts of a manifest fit their own limits, so that the whole is far below 4 MiB. -/
theorem Complete.size_published (complete : Complete lib files receipt source index) (valid : scope.valid = true)
    (digests : ∀ bytes, hashValid (lib.sha256 bytes) = true) :
    JsonText.size (Complete.published lib scope receipt source index).text ≤ maxIndex + maxManifest + 2048 := by
  obtain ⟨text, -, parsed⟩ := complete.manifest
  have sorted := (Manifest.parse_ok.mp (parse_sorted parsed)).1
  rw [lib.length_ofManifest] at sorted
  have listed := size_files complete.valid complete.source_valid
  have parts := complete.size_parts valid digests
  omega

theorem eval_readBounded {σ : Type} {s : σ} (path : σ → Option (Node B)) {limit : Nat} {bytes : B}
    (there : path s = some (.file bytes)) (short : lib.length bytes ≤ limit) :
    eval s (readBounded lib path limit) = .ok bytes := by
  simp only [readBounded, Reads.eval, there, if_neg (Nat.not_lt.mpr short), Reads.eval_pure]

theorem eval_fileBounded {name : String} {limit : Nat} {bytes : B} (there : files name = some (.file bytes))
    (short : lib.length bytes ≤ limit) :
    eval (some (.directory files)) (readBounded lib (Place.at name) limit) = .ok bytes :=
  eval_readBounded (Place.at name) there short

/-- The stem of a table in an index. -/
structure Stem (source : Manifest) (f : File) (stem : String) : Prop where
  file : f.name = stem ++ ".json"
  safe : safeComponent stem = true
  listed : source.files.any (fun e => e.name == stem ++ ".bin") = true

theorem Complete.stem (complete : Complete lib files receipt source index) {f : File} (member : f ∈ index.files) :
    ∃ stem, Stem source f stem := by
  obtain ⟨e, inside, same⟩ := complete.valid.entry member
  have formed := complete.source_valid.entries e inside
  obtain ⟨stem, bin, json, safe, short, start, -⟩ := Entry.wellFormed_stem formed
  refine ⟨String.ofList stem, ⟨?_, ?_, ?_⟩⟩
  · rw [← same]
    apply String.toList_inj.mp
    rw [json, String.toList_append, String.toList_ofList]
    rfl
  · have some_ : String.ofList stem ≠ "" := by
      intro empty
      have none := congrArg String.toList empty
      rw [String.toList_ofList] at none
      rw [none] at start
      cases start
    simp only [safeComponent, Bool.and_eq_true, bne_iff_ne, decide_eq_true_eq, JsonText.utf8ByteSize_eq_size,
      String.toList_ofList]
    exact ⟨⟨some_, short⟩, safe⟩
  · refine List.any_eq_true.mpr ⟨e, inside, ?_⟩
    rw [beq_iff_eq]
    apply String.toList_inj.mp
    rw [bin, String.toList_append, String.toList_ofList]
    rfl

theorem Inventory.Valid.distinct (valid : index.Valid source) (manifest : source.Valid) :
    (index.files.map File.name).Nodup := by
  rw [valid.names, expectedNames, (List.perm_insertionSort (· ≤ ·) _).nodup_iff]
  refine (List.nodup_map_iff_inj_on (List.Nodup.of_map Entry.name manifest.distinct)).mpr fun a first b second same => ?_
  have names := jsonName_injective (manifest.entries a first) (manifest.entries b second) same
  exact List.inj_on_of_nodup_map manifest.distinct first second names

theorem find_name {entries : List File} (distinct : (entries.map File.name).Nodup) {f : File} (member : f ∈ entries) :
    entries.find? (fun e => e.name == f.name) = some f := by
  have found := Rows.find_member distinct member
  simpa only [Rows.find, beq_eq_decide] using found

theorem Complete.eval_indexed (complete : Complete lib files receipt source index) {f : File} (member : f ∈ index.files)
    {stem : String} (named : Stem source f stem) :
    eval (some (.directory files)) (verifyIndexedDigest lib source stem f.size f.sha256) = .ok true := by
  have short : lib.length (lib.ofInventory index) ≤ maxIndex := by
    rw [lib.length_ofInventory]
    exact size_inventory complete.valid complete.source_valid
  have there : Place.at "tables.json" (some (.directory files)) = some (.file (lib.ofInventory index)) := complete.indexed
  simp only [verifyIndexedDigest, Reads.eval, there]
  rw [Reads.eval_bind_ok (eval_file complete.indexed short), lib.inventory_ofInventory]
  simp only
  rw [Reads.eval_bind_ok ((Reads.eval_done _).trans (Inventory.validate_ok.mpr complete.valid)), ← named.file,
    find_name (complete.valid.distinct complete.source_valid) member]
  simp only [bne_self_eq_false, Bool.or_self, Bool.false_eq_true, if_false, Reads.eval_pure]

/-- What a listed table holds on the disk. -/
theorem Complete.held (complete : Complete lib files receipt source index) {f : File} (member : f ∈ index.files) {stem : String}
    (named : Stem source f stem) :
    ∃ bytes, files (stem ++ ".json") = some (.file bytes) ∧ lib.length bytes = f.size ∧ digest lib bytes = f.sha256 ∧
      lib.length bytes ≤ maxJson ∧ lib.validJson bytes = true := by
  obtain ⟨bytes, there, same, valid⟩ := complete.tables f member
  have size : lib.length bytes = f.size := congrArg File.size same
  refine ⟨bytes, by rw [← named.file]; exact there, size, congrArg File.sha256 same, ?_, valid⟩
  rw [size]
  exact (complete.valid.files f member).2.1

theorem Complete.eval_table (complete : Complete lib files receipt source index) {f : File} (member : f ∈ index.files)
    {stem : String} (named : Stem source f stem) :
    ∃ bytes, eval (some (.directory files)) (tableRead lib receipt.region receipt.snapshot stem f.sha256 true) =
        .ok ⟨bytes, "\"" ++ f.sha256 ++ "\"", source.version⟩ ∧
      lib.length bytes = f.size ∧ digest lib bytes = f.sha256 ∧ lib.validJson bytes = true := by
  obtain ⟨bytes, there, size, hash, short, valid⟩ := complete.held member named
  have indexed := complete.eval_indexed member named
  have hashed := (complete.valid.files f member).2.2
  refine ⟨bytes, ?_, size, hash, valid⟩
  unfold tableRead
  simp only [named.safe, hashed, Bool.not_true, Bool.or_self, Bool.false_eq_true, if_false]
  rw [Reads.eval_bind_ok (eval_snapshotDirectory complete.named), Reads.eval_bind_ok complete.eval_provenance]
  simp only [bne_self_eq_false, named.listed, Bool.not_true, Bool.false_eq_true, if_false]
  rw [Reads.eval_bind_ok (eval_file there short)]
  simp only [hash, bne_self_eq_false, Bool.false_eq_true, if_false]
  rw [size, Reads.eval_bind_ok indexed, valid]
  rfl

theorem Complete.eval_readTable (complete : Complete lib files receipt source index) {f : File} (member : f ∈ index.files)
    {stem : String} (named : Stem source f stem) :
    ∃ bytes, eval (some (.directory files)) (readTable lib source stem) =
        .ok (⟨source.version, f.sha256, bytes⟩, true) ∧ lib.length bytes = f.size ∧ digest lib bytes = f.sha256 := by
  obtain ⟨bytes, there, size, hash, short, -⟩ := complete.held member named
  have indexed := complete.eval_indexed member named
  refine ⟨bytes, ?_, size, hash⟩
  unfold readTable
  simp only [named.safe, named.listed, Bool.not_true, Bool.or_self, Bool.false_eq_true, if_false]
  rw [Reads.eval_bind_ok (eval_fileBounded there short), hash, size,
    Reads.eval_bind_ok indexed]
  rfl

/-- What `read_current_in` goes through before it turns to a table or to the status. -/
theorem Complete.eval_readSnapshot (complete : Complete lib files receipt source index) (table : Option String) :
    eval (some (.directory files)) (readSnapshot lib ofStatus receipt.snapshot table (some receipt.region)) =
      eval (some (.directory files)) (table.elim
        (Reads.Prog.done (status lib ofStatus source receipt.snapshot receipt.region receipt.value) >>= fun document =>
          pure (document, false)) (readTable lib source)) := by
  obtain ⟨text, there, parsed⟩ := complete.manifest
  have region : recordedRegion receipt.value = .ok receipt.region := by
    simp only [recordedRegion, ImportReceipt.value, Region.fromRecordedName_name, Option.filter_some, complete.supported,
      if_true]
  have receiptShort : lib.length (lib.ofReceipt receipt) ≤ 4096 := by
    rw [lib.length_ofReceipt]
    exact size_receipt (complete.version ▸ complete.source_valid.version) (safe_of_named complete.named)
      (complete.count ▸ complete.source_valid.count) complete.bytes complete.resource
  unfold readSnapshot
  rw [Reads.eval_bind_ok (eval_fileBounded there (Manifest.parse_ok.mp parsed).1),
    Reads.eval_bind_ok ((Reads.eval_done _).trans parsed),
    Reads.eval_bind_ok (eval_fileBounded complete.recorded receiptShort), lib.receipt_ofReceipt]
  simp only
  rw [Reads.eval_bind_ok ((Reads.eval_done _).trans region)]
  simp only [Option.any_some, bne_self_eq_false, Bool.false_eq_true, if_false]
  cases table <;> rfl

end SiriusProxy.Master
