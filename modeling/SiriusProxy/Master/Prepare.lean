import SiriusProxy.Master.Disk
import SiriusProxy.Master.Sizes
import Mathlib.Logic.Function.Basic

namespace SiriusProxy.Master
open Reads (eval)

variable {B : Type}

/-- The hexadecimal digits of a random UUID. -/
structure Uuid where
  digits : List Char
  count : digits.length = 32
  hex : digits.all isLowerHex = true

def snapshotName (uuid : Uuid) : String := String.ofList (['m', 'a', 's', 't', 'e', 'r', '-'] ++ uuid.digits)

/-- A name that `snapshot_directory` accepts. -/
def isSnapshotName (snapshot : String) : Bool := startsWith snapshot "master-" && safeComponent snapshot

theorem utf8Size_of_lowerHex {c : Char} (hex : isLowerHex c = true) : c.utf8Size = 1 := by
  have plain := isPlain_of_safe (isSafeChar_of_lowerHex hex)
  simp only [JsonText.isPlain, Bool.and_eq_true, decide_eq_true_eq] at plain
  have small : c.val ≤ 127 := by
    rw [UInt32.le_iff_toNat_le]
    exact Nat.le_of_lt_succ plain.1.1.2
  simp [Char.utf8Size, small]

/-- The name of a new snapshot is accepted by the reader. It is a fixed beginning and the hyphenated digits of the
uuid, none of which is a separator, and short enough. -/
theorem isSnapshotName_snapshotName (uuid : Uuid) : isSnapshotName (snapshotName uuid) = true := by
  have size : JsonText.size uuid.digits = 32 := by
    rw [JsonText.size_ascii fun c member => utf8Size_of_lowerHex (List.all_eq_true.mp uuid.hex c member), uuid.count]
  have seven : JsonText.size ['m', 'a', 's', 't', 'e', 'r', '-'] = 7 := rfl
  have safe : uuid.digits.all isSafeChar = true :=
    List.all_eq_true.mpr fun c member => isSafeChar_of_lowerHex (List.all_eq_true.mp uuid.hex c member)
  have first : ['m', 'a', 's', 't', 'e', 'r', '-'].all isSafeChar = true := by decide
  have bytes : (snapshotName uuid).utf8ByteSize = 39 := by
    rw [JsonText.utf8ByteSize_eq_size, snapshotName, String.toList_ofList, JsonText.size_append, size, seven]
  simp only [isSnapshotName, startsWith, safeComponent, Bool.and_eq_true, bne_iff_ne, ne_eq, decide_eq_true_eq]
  refine ⟨?_, ⟨?_, by omega⟩, ?_⟩
  · refine List.isPrefixOf_iff_prefix.mpr ⟨uuid.digits, ?_⟩
    rw [snapshotName, String.toList_ofList]
    simp
  · intro empty
    rw [empty] at bytes
    cases bytes
  · rw [snapshotName, String.toList_ofList, List.all_append, first, safe]
    rfl

variable (lib : Serde B)

/-- A directory with everything a prepared import writes, checked. -/
structure Complete (files : String → Option (Node B)) (receipt : ImportReceipt) (source : Manifest) (index : Inventory) :
    Prop where
  named : isSnapshotName receipt.snapshot = true
  supported : receipt.region.masterSupported = true
  version : receipt.version = source.version
  count : receipt.tables = source.files.length
  bytes : receipt.jsonBytes ≤ maxTotal
  resource : ∀ v, receipt.resourceVersion = some v → safeVersion v = true
  manifest : ∃ text, files "MasterManifest.json" = some (.file text) ∧ Manifest.parse lib text = .ok source
  recorded : files "receipt.json" = some (.file (lib.ofReceipt receipt))
  indexed : files "tables.json" = some (.file (lib.ofInventory index))
  valid : index.Valid source
  tables : ∀ f ∈ index.files, ∃ table, files f.name = some (.file table) ∧ file lib f.name table = f ∧
    lib.validJson table = true

variable {lib} {files : String → Option (Node B)} {receipt : ImportReceipt} {source : Manifest} {index : Inventory}
  {scope : Scope}

/-- A manifest is read exactly if its text is within the limit and the parsed manifest passes the checks. -/
theorem Manifest.parse_ok {text : B} : Manifest.parse lib text = .ok source ↔
    lib.length text ≤ maxManifest ∧ lib.manifest text = some source ∧ source.Valid := by
  unfold Manifest.parse
  split
  · rename_i long
    constructor
    · intro impossible
      cases impossible
    · intro ⟨short, _⟩
      omega
  · rename_i short
    split
    · rename_i unread
      simp [unread]
    · rename_i m read
      split
      · rename_i e refused
        constructor
        · intro impossible
          cases impossible
        · intro ⟨_, same, valid⟩
          cases read.symm.trans same
          rw [Manifest.check_ok.mpr valid] at refused
          cases refused
      · rename_i passed
        constructor
        · intro same
          cases same
          exact ⟨Nat.not_lt.mp short, read, Manifest.check_ok.mp passed⟩
        · intro ⟨_, same, _⟩
          cases read.symm.trans same
          rfl

theorem Complete.source_valid (complete : Complete lib files receipt source index) : source.Valid := by
  obtain ⟨text, -, parsed⟩ := complete.manifest
  exact (Manifest.parse_ok.mp parsed).2.2

theorem eval_regular {σ : Type} {s : σ} (path : σ → Option (Node B)) {limit : Nat} {bytes : B}
    (there : path s = some (.file bytes)) (short : lib.length bytes ≤ limit) :
    eval s (regular lib path limit) = .ok bytes := by
  simp only [regular, readBounded, Reads.eval, there, if_neg (Nat.not_lt.mpr short), Reads.eval_pure]

theorem eval_file {name : String} {limit : Nat} {bytes : B} (there : files name = some (.file bytes))
    (short : lib.length bytes ≤ limit) :
    eval (some (.directory files)) (regular lib (Place.at name) limit) = .ok bytes :=
  eval_regular (Place.at name) there short

theorem eval_snapshotDirectory {snapshot : String} (named : isSnapshotName snapshot = true) :
    eval (some (.directory files)) (snapshotDirectory (B := B) snapshot) = .ok () := by
  simp only [isSnapshotName, Bool.and_eq_true] at named
  simp only [snapshotDirectory, named.1, named.2, Bool.not_true, Bool.or_self, Bool.false_eq_true, if_false, Reads.eval,
    Place.self, Reads.eval_pure]

/-- A complete snapshot is read back with the provenance of its receipt: the source manifest was valid when it was
staged, and the receipt agrees with it in every field that the reader compares. -/
theorem Complete.eval_provenance (complete : Complete lib files receipt source index) :
    eval (some (.directory files)) (sourceWithProvenance lib receipt.snapshot) =
      .ok ⟨source, receipt.resourceVersion, receipt.region⟩ := by
  obtain ⟨text, there, parsed⟩ := complete.manifest
  have short := (Manifest.parse_ok.mp parsed).1
  have safe : safeComponent receipt.snapshot = true := by
    have named := complete.named
    simp only [isSnapshotName, Bool.and_eq_true] at named
    exact named.2
  have receiptShort : lib.length (lib.ofReceipt receipt) ≤ 4096 := by
    rw [lib.length_ofReceipt]
    exact size_receipt (complete.version ▸ complete.source_valid.version) safe
      (complete.count ▸ complete.source_valid.count) complete.bytes complete.resource
  have sourceNamed : [Source.localImport, .remote, .registry].any (·.name == receipt.source.name) = true := by
    cases receipt.source <;> rfl
  have resource : recordedResourceVersion receipt.value = .ok receipt.resourceVersion := by
    unfold recordedResourceVersion ImportReceipt.value
    cases recorded : receipt.resourceVersion with
    | none => rfl
    | some v => simp only [Option.map_some, complete.resource v recorded, if_true]
  have region : recordedRegion receipt.value = .ok receipt.region := by
    simp only [recordedRegion, ImportReceipt.value, Region.fromRecordedName_name, Option.filter_some, complete.supported,
      if_true]
  have checked : provenance receipt.snapshot source receipt.value =
      .ok ⟨source, receipt.resourceVersion, receipt.region⟩ := by
    unfold provenance
    rw [if_neg, resource, region]
    simp only [ImportReceipt.value, complete.version, complete.count, bne_self_eq_false, Option.any_some, sourceNamed,
      Bool.not_true, Bool.or_self, Bool.false_eq_true, not_false_eq_true]
  unfold sourceWithProvenance
  rw [Reads.eval_bind_ok (eval_file there short), Reads.eval_bind_ok ((Reads.eval_done _).trans parsed),
    Reads.eval_bind_ok (eval_file complete.recorded receiptShort), lib.receipt_ofReceipt]
  exact checked

theorem Complete.eval_committed (complete : Complete lib files receipt source index) :
    eval (some (.directory files)) (committed lib receipt.snapshot) =
      .ok ⟨source, receipt.resourceVersion, receipt.region⟩ := by
  unfold committed
  rw [Reads.eval_bind_ok (eval_snapshotDirectory complete.named)]
  exact complete.eval_provenance

theorem sorted_perm (m : Manifest) : m.sorted.files.Perm m.files := List.perm_insertionSort _ _

/-- The index of a complete snapshot is read back and passes the check against the sorted manifest, as the check
does not depend on the order. -/
theorem Complete.eval_inventory (complete : Complete lib files receipt source index) :
    eval (some (.directory files)) (inventory lib source.sorted) = .ok index := by
  have short : lib.length (lib.ofInventory index) ≤ maxIndex := by
    rw [lib.length_ofInventory]
    exact size_inventory complete.valid complete.source_valid
  have read : eval (some (.directory files)) (inventoryIndexed lib) = .ok index := by
    unfold inventoryIndexed
    rw [Reads.eval_bind_ok (eval_file complete.indexed short), lib.inventory_ofInventory]
    rfl
  have valid : index.validate source.sorted = .ok () :=
    Inventory.validate_ok.mpr (complete.valid.perm rfl (sorted_perm source).symm)
  have there : Place.at "tables.json" (some (.directory files)) = some (.file (lib.ofInventory index)) :=
    complete.indexed
  simp only [inventory, Reads.eval, there]
  rw [Reads.eval_bind_ok read]
  unfold inventoryChecked
  rw [Reads.eval_bind_ok ((Reads.eval_done _).trans valid)]
  rfl

/-- The document of a complete snapshot. -/
def Complete.published (lib : Serde B) (scope : Scope) (receipt : ImportReceipt) (source : Manifest) (index : Inventory) :
    PublishedManifest :=
  Master.published lib scope receipt.snapshot ⟨source, receipt.resourceVersion, receipt.region⟩ index

/-- The document of a complete snapshot is the one that its receipt, manifest and index determine. -/
theorem Complete.eval_manifest (complete : Complete lib files receipt source index) (valid : scope.valid = true)
    (region : scope.region = receipt.region) :
    eval (some (.directory files)) (manifestIn lib receipt.snapshot scope) =
      .ok (document lib (Complete.published lib scope receipt source index)) := by
  simp only [manifestIn, manifestOf, valid, Bool.not_true, Bool.false_eq_true, if_false]
  rw [Reads.eval_bind_ok (eval_snapshotDirectory complete.named), Reads.eval_bind_ok complete.eval_provenance]
  simp only [region, bne_self_eq_false, Bool.false_eq_true, if_false]
  rw [Reads.eval_bind_ok complete.eval_inventory]
  rfl

/-- The sorted manifest is strictly ordered, because the names of a valid manifest are distinct. -/
theorem sorted_strict {m : Manifest} (valid : m.Valid) : strictlyOrdered m.sorted.files = true := by
  have distinct : (m.sorted.files.map Entry.name).Nodup := ((sorted_perm m).map _).nodup_iff.mpr valid.distinct
  have sorted : m.sorted.files.Pairwise fun a b => a.name ≤ b.name :=
    List.pairwise_insertionSort (fun a b : Entry => a.name ≤ b.name) m.files
  generalize m.sorted.files = files at distinct sorted
  induction files with
  | nil => rfl
  | cons a rest ih =>
    obtain ⟨first, later⟩ := List.pairwise_cons.mp sorted
    obtain ⟨apart, distinct⟩ := List.nodup_cons.mp distinct
    cases rest with
    | nil => rfl
    | cons b rest =>
      have differs : a.name ≠ b.name := fun same => apart (same ▸ List.mem_map_of_mem List.mem_cons_self)
      have less : a.name < b.name := lt_of_le_of_ne (first b List.mem_cons_self) differs
      rw [strictlyOrdered, ih distinct later, decide_eq_true less]
      rfl

/-- Sorting a manifest changes nothing that its checks see, and keeps its compact length. -/
theorem parse_sorted {text : B} (parsed : Manifest.parse lib text = .ok source) :
    Manifest.parse lib (lib.ofManifest source.sorted) = .ok source.sorted := by
  obtain ⟨short, read, valid⟩ := Manifest.parse_ok.mp parsed
  refine Manifest.parse_ok.mpr ⟨?_, lib.manifest_ofManifest _, valid.perm (sorted_perm source)⟩
  have compact := lib.manifest_shortest text source read
  have same : JsonText.size source.sorted.text = JsonText.size source.text := by
    have items : ((source.sorted.files.map Entry.text).map JsonText.size).sum =
        ((source.files.map Entry.text).map JsonText.size).sum := (((sorted_perm source).map _).map _).sum_eq
    have count : source.sorted.files.length = source.files.length := (sorted_perm source).length_eq
    rw [Manifest.text, Manifest.text, JsonText.size_obj, JsonText.size_obj]
    simp only [List.map_cons, List.map_nil, List.sum_cons, List.sum_nil, JsonText.size_arr, List.length_map, items, count]
    rfl
  rw [lib.length_ofManifest, same, ← lib.length_ofManifest]
  omega

/-- The manifest of a complete snapshot passes the check that a consumer makes. -/
theorem Complete.validate (complete : Complete lib files receipt source index) (region : scope.region = receipt.region) :
    (Complete.published lib scope receipt source index).validate lib scope = .ok () := by
  obtain ⟨text, -, parsed⟩ := complete.manifest
  have named := complete.named
  simp only [isSnapshotName, Bool.and_eq_true] at named
  have resource : receipt.resourceVersion.any (fun v => !safeVersion v) = false := by
    cases recorded : receipt.resourceVersion with
    | none => rfl
    | some v => simp [complete.resource v recorded]
  have indexed : Inventory.validate ⟨1, source.version, index.files⟩ source.sorted = .ok () := by
    have valid : index.Valid source.sorted := complete.valid.perm rfl (sorted_perm source).symm
    exact Inventory.validate_ok.mpr ⟨rfl, rfl, valid.names, valid.files, valid.total⟩
  unfold PublishedManifest.validate
  rw [if_neg]
  · simp only [Complete.published, Master.published, parse_sorted parsed, sorted_strict complete.source_valid, Bool.not_true,
      Bool.false_eq_true, if_false, indexed, bne_self_eq_false]
  · simp only [Complete.published, Master.published, bne_self_eq_false, region, complete.supported, named.1, named.2, resource,
      Bool.not_true, Bool.or_self, Bool.false_or]
    simp [Manifest.sorted]

end SiriusProxy.Master
