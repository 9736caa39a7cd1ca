import SiriusProxy.Master.Prepare

namespace SiriusProxy.Master
open Reads (eval)

variable {B : Type}

/-- `fs::File::create` with the content that is synced. -/
def write (files : String → Option (Node B)) (name : String) (bytes : B) : String → Option (Node B) :=
  Function.update files name (some (.file bytes))

@[simp] theorem write_self (files : String → Option (Node B)) (name : String) (bytes : B) :
    write files name bytes name = some (.file bytes) := Function.update_self ..

theorem write_other (files : String → Option (Node B)) {name other : String} (bytes : B) (differs : other ≠ name) :
    write files name bytes other = files other := Function.update_of_ne differs ..

structure Staging (B : Type) where
  files : String → Option (Node B) := fun _ => none
  total : Nat := 0
  indexed : List File := []

/-- What `prepare_*` hands to `publish`: the staged files and the receipt. -/
structure Draft (B : Type) where
  files : String → Option (Node B)
  receipt : ImportReceipt

variable (lib : Serde B)

def eqIgnoreAsciiCase (a b : String) : Bool := a.toList.map Char.toLower == b.toList.map Char.toLower

/-- `MasterDecoder::decode`; `unpack` is its decryption and decompression. -/
def decode (unpack : B → Except MasterError B) (entry : Entry) (data : B) : Except MasterError B := do
  if maxEncrypted < lib.length data then .error .limit
  else if lib.length data != entry.size || !eqIgnoreAsciiCase (digest lib data) entry.hash then .error .integrity
  else
    let json ← unpack data
    if maxJson < lib.length json then .error .limit
    else if !lib.validJson json then .error .format
    else .ok json

/-- The loop of `prepare_directory`. -/
def prepareTables (input : String → Option (Node B)) (unpack : B → Except MasterError B) :
    List Entry → Staging B → Except MasterError (Staging B)
  | [], staging => .ok staging
  | entry :: rest, staging => do
    let bytes ← eval input (readBounded lib (fun files => files entry.name) maxEncrypted)
    let json ← decode lib unpack entry bytes
    let total := staging.total + lib.length json
    if maxTotal < total then .error .limit
    else prepareTables input unpack rest {
      files := write staging.files (jsonName entry.name) json
      total := total
      indexed := staging.indexed ++ [file lib (jsonName entry.name) json] }

def stage (files : String → Option (Node B)) (index : Inventory) (manifestBytes : B) (receipt : ImportReceipt) : Draft B where
  files := write (write (write files "tables.json" (lib.ofInventory index)) "MasterManifest.json" manifestBytes)
    "receipt.json" (lib.ofReceipt receipt)
  receipt := receipt

def prepareDirectory (input : String → Option (Node B)) (unpack : B → Except MasterError B) (source : Source)
    (resourceVersion : Option String) (region : Region) (uuid : Uuid) : Except MasterError (Draft B) := do
  if !region.masterSupported || resourceVersion.any (fun v => !safeVersion v) then .error .format
  else
    let manifestBytes ← eval input (readBounded lib (fun files => files "MasterManifest.json") maxManifest)
    let manifest ← Manifest.parse lib manifestBytes
    let staging ← prepareTables lib input unpack manifest.files {}
    let index : Inventory := { schemaVersion := 1, version := manifest.version, files := sortFiles staging.indexed }
    index.validate manifest
    .ok (stage lib staging.files index manifestBytes {
      version := manifest.version
      snapshot := snapshotName uuid
      tables := manifest.files.length
      jsonBytes := staging.total
      source := source
      region := region
      resourceVersion := resourceVersion })

/-- The loop of `prepare_registry` over the staged tables. -/
def checkTables (files : String → Option (Node B)) : List File → Nat → Except MasterError Nat
  | [], total => .ok total
  | entry :: rest, total =>
    match files entry.name with
    | none => .error (.io true)
    | some (.file bytes) =>
      if entry.size < lib.length bytes then .error .limit
      else if lib.length bytes != entry.size || digest lib bytes != entry.sha256 then .error .integrity
      else if !lib.validJson bytes then .error .format
      else checkTables files rest (total + entry.size)
    | some _ => .error .format

def prepareRegistry (staged : String → Option (Node B)) (manifest : PublishedManifest) (uuid : Uuid) :
    Except MasterError (Draft B) := do
  manifest.validate lib manifest.scope
  let total ← checkTables lib staged manifest.files 0
  let index : Inventory := { schemaVersion := 1, version := manifest.version, files := manifest.files }
  .ok (stage lib staged index (lib.ofManifest manifest.sourceManifest) {
    version := manifest.version
    snapshot := snapshotName uuid
    tables := manifest.files.length
    jsonBytes := total
    source := .registry
    region := manifest.scope.region
    resourceVersion := manifest.resourceVersion })

variable {lib} {files : String → Option (Node B)} {source : Manifest} {index : Inventory} {receipt : ImportReceipt}

/-- A staged file holds what its index entry says. -/
def Holds (lib : Serde B) (files : String → Option (Node B)) (f : File) : Prop :=
  ∃ table, files f.name = some (.file table) ∧ file lib f.name table = f ∧ lib.validJson table = true

theorem Holds.write {f : File} (holds : Holds lib files f) {name : String} (bytes : B) (differs : f.name ≠ name) :
    Holds lib (write files name bytes) f := by
  obtain ⟨table, there, same, valid⟩ := holds
  exact ⟨table, (write_other files bytes differs).trans there, same, valid⟩

theorem decode_valid {unpack : B → Except MasterError B} {entry : Entry} {data json : B}
    (decoded : decode lib unpack entry data = .ok json) : lib.validJson json = true := by
  unfold decode at decoded
  split at decoded
  · cases decoded
  · split at decoded
    · cases decoded
    · obtain ⟨unpacked, -, checked⟩ := bind_ok decoded
      split at checked
      · cases checked
      · split at checked
        · cases checked
        · rename_i valid
          cases checked
          simpa using valid

/-- The loop leaves every table it indexed, under the name of its entry. -/
theorem prepareTables_holds {input : String → Option (Node B)} {unpack : B → Except MasterError B} {entries : List Entry}
    {before after : Staging B} (run : prepareTables lib input unpack entries before = .ok after)
    (formed : ∀ e ∈ entries, e.wellFormed = true) (distinct : (entries.map Entry.name).Nodup)
    (held : ∀ f ∈ before.indexed, Holds lib before.files f ∧ ∀ e ∈ entries, f.name ≠ jsonName e.name)
    (bounded : before.total ≤ maxTotal) :
    (∀ f ∈ after.indexed, Holds lib after.files f) ∧ after.total ≤ maxTotal := by
  induction entries generalizing before with
  | nil =>
    cases run
    exact ⟨fun f member => (held f member).1, bounded⟩
  | cons entry rest ih =>
    obtain ⟨bytes, -, run⟩ := bind_ok run
    obtain ⟨json, decoded, run⟩ := bind_ok run
    simp only at run
    split at run
    · cases run
    · rename_i fits
      obtain ⟨apart, distinct⟩ := List.nodup_cons.mp distinct
      refine ih run (fun e member => formed e (List.mem_cons_of_mem _ member)) distinct ?_ (Nat.not_lt.mp fits)
      intro f member
      rcases List.mem_append.mp member with old | new
      · obtain ⟨holds, others⟩ := held f old
        exact ⟨holds.write json (others entry List.mem_cons_self),
          fun e later => others e (List.mem_cons_of_mem _ later)⟩
      · cases List.mem_singleton.mp new
        refine ⟨⟨json, write_self .., rfl, decode_valid decoded⟩, fun e later same => ?_⟩
        have equal := jsonName_injective (formed entry List.mem_cons_self) (formed e (List.mem_cons_of_mem _ later)) same
        exact apart (equal ▸ List.mem_map_of_mem later)

/-- Staging the three records over checked tables completes the snapshot. -/
theorem stage_complete {manifestBytes : B} (named : isSnapshotName receipt.snapshot = true)
    (supported : receipt.region.masterSupported = true) (version : receipt.version = source.version)
    (count : receipt.tables = source.files.length) (bytes : receipt.jsonBytes ≤ maxTotal)
    (resource : ∀ v, receipt.resourceVersion = some v → safeVersion v = true)
    (parsed : Manifest.parse lib manifestBytes = .ok source) (valid : index.Valid source)
    (tables : ∀ f ∈ index.files, Holds lib files f) :
    Complete lib (stage lib files index manifestBytes receipt).files receipt source index := by
  have formed := (Manifest.parse_ok.mp parsed).2.2.entries
  refine ⟨named, supported, version, count, bytes, resource, ⟨manifestBytes, ?_, parsed⟩, ?_, ?_, valid, ?_⟩
  · simp only [stage]
    rw [write_other _ _ (by decide), write_self]
  · simp only [stage, write_self]
  · simp only [stage]
    rw [write_other _ _ (by decide), write_other _ _ (by decide), write_self]
  · intro f member
    have reserved := valid.reserved formed member
    simp only [List.mem_cons, List.not_mem_nil, or_false, not_or] at reserved
    exact (((tables f member).write _ reserved.1).write _ reserved.2.1).write _ reserved.2.2.1

theorem prepareDirectory_complete {input : String → Option (Node B)} {unpack : B → Except MasterError B} {origin : Source}
    {resourceVersion : Option String} {region : Region} {uuid : Uuid} {draft : Draft B}
    (prepared : prepareDirectory lib input unpack origin resourceVersion region uuid = .ok draft) :
    ∃ source index, Complete lib draft.files draft.receipt source index := by
  unfold prepareDirectory at prepared
  split at prepared
  · cases prepared
  · rename_i accepted
    simp only [Bool.or_eq_true, Bool.not_eq_true', not_or, Bool.not_eq_false, Option.any_eq_true, not_exists,
      not_and] at accepted
    obtain ⟨manifestBytes, -, prepared⟩ := bind_ok prepared
    obtain ⟨manifest, parsed, prepared⟩ := bind_ok prepared
    obtain ⟨staging, ran, prepared⟩ := bind_ok prepared
    obtain ⟨⟨⟩, checked, prepared⟩ := bind_ok prepared
    cases prepared
    have valid := (Manifest.parse_ok.mp parsed).2.2
    obtain ⟨held, bounded⟩ := prepareTables_holds ran valid.entries valid.distinct (by simp) (Nat.zero_le _)
    refine ⟨manifest, _, stage_complete (isSnapshotName_snapshotName uuid) accepted.1 rfl rfl bounded (fun v some => ?_)
      parsed (Inventory.validate_ok.mp checked) fun f member => ?_⟩
    · simpa using accepted.2 v some
    · exact held f ((List.perm_insertionSort _ _).mem_iff.mp member)

theorem checkTables_holds {staged : String → Option (Node B)} {entries : List File} {start total : Nat}
    (run : checkTables lib staged entries start = .ok total) :
    (∀ f ∈ entries, Holds lib staged f) ∧ total = start + (entries.map File.size).sum := by
  induction entries generalizing start with
  | nil =>
    cases run
    exact ⟨by simp, by simp⟩
  | cons entry rest ih =>
    unfold checkTables at run
    split at run
    · cases run
    · rename_i bytes there
      split at run
      · cases run
      · split at run
        · cases run
        · rename_i same
          simp only [Bool.or_eq_true, bne_iff_ne, ne_eq, not_or, not_not] at same
          split at run
          · cases run
          · rename_i valid
            obtain ⟨later, sum⟩ := ih run
            refine ⟨fun f member => ?_, ?_⟩
            · rcases List.mem_cons.mp member with rfl | after
              · refine ⟨bytes, there, ?_, by simpa using valid⟩
                rw [file, same.1, same.2]
              · exact later f after
            · rw [sum, List.map_cons, List.sum_cons, Nat.add_assoc]
    · cases run

/-- What a published manifest passes when it is validated. -/
structure PublishedManifest.Valid (lib : Serde B) (p : PublishedManifest) (scope : Scope) : Prop where
  own : p.scope = scope
  supported : scope.region.masterSupported = true
  version : p.version = p.sourceManifest.version
  resource : ∀ v, p.resourceVersion = some v → safeVersion v = true
  parsed : Manifest.parse lib (lib.ofManifest p.sourceManifest) = .ok p.sourceManifest
  ordered : strictlyOrdered p.sourceManifest.files = true
  inventory : Inventory.Valid { schemaVersion := 1, version := p.version, files := p.files } p.sourceManifest
  content : contentHash lib scope p.sourceManifest p.files = p.contentSha256

theorem PublishedManifest.valid_of_validate {p : PublishedManifest} {scope : Scope}
    (passed : p.validate lib scope = .ok ()) : p.Valid lib scope := by
  unfold PublishedManifest.validate at passed
  split at passed
  · cases passed
  · rename_i shape
    simp only [Bool.or_eq_true, bne_iff_ne, ne_eq, Bool.not_eq_true', not_or, not_not, Bool.not_eq_false,
      Option.any_eq_true, not_exists, not_and] at shape
    obtain ⟨⟨⟨⟨⟨⟨-, own⟩, supported⟩, -⟩, -⟩, version⟩, resource⟩ := shape
    split at passed
    · cases passed
    · rename_i source parsed
      have same : source = p.sourceManifest := by
        have read := (Manifest.parse_ok.mp parsed).2.1
        rw [lib.manifest_ofManifest] at read
        exact (Option.some.inj read).symm
      subst same
      split at passed
      · cases passed
      · rename_i ordered
        split at passed
        · cases passed
        · rename_i checked
          split at passed
          · cases passed
          · rename_i hashed
            refine ⟨own, supported, version, fun v some => ?_, parsed, ?_, Inventory.validate_ok.mp checked, ?_⟩
            · simpa using resource v some
            · simpa using ordered
            · simpa using hashed

theorem prepareRegistry_complete {staged : String → Option (Node B)} {manifest : PublishedManifest} {uuid : Uuid}
    {draft : Draft B} (prepared : prepareRegistry lib staged manifest uuid = .ok draft) :
    Complete lib draft.files draft.receipt manifest.sourceManifest
      { schemaVersion := 1, version := manifest.version, files := manifest.files } := by
  unfold prepareRegistry at prepared
  obtain ⟨⟨⟩, passed, prepared⟩ := bind_ok prepared
  obtain ⟨total, checked, prepared⟩ := bind_ok prepared
  cases prepared
  have valid := PublishedManifest.valid_of_validate passed
  obtain ⟨held, sum⟩ := checkTables_holds checked
  have count : manifest.files.length = manifest.sourceManifest.files.length := by
    rw [← length_expectedNames, ← valid.inventory.names, List.length_map]
  refine stage_complete (isSnapshotName_snapshotName uuid) valid.supported valid.version count ?_ valid.resource
    valid.parsed valid.inventory held
  have bounded := valid.inventory.total
  simp only at bounded ⊢
  omega

end SiriusProxy.Master
