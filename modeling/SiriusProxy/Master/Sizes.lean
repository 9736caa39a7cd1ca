import SiriusProxy.Master.Registry
import Mathlib.Algebra.Order.BigOperators.Group.List

/-! The records that a writer makes stay within the limits of their readers. -/

namespace SiriusProxy.Master

/-- The characters of safe names need no escape in JSON. All five character classes below are read as ranges of
code points, and what is left is arithmetic. -/
theorem isPlain_of_safe {c : Char} (safe : isSafeChar c = true) : JsonText.isPlain c = true := by
  simp only [isSafeChar, isAsciiAlphanumeric, isAsciiUpper, isAsciiLower, isAsciiDigit, Bool.or_eq_true,
    Bool.and_eq_true, decide_eq_true_eq, beq_iff_eq, Char.le_def, UInt32.le_iff_toNat_le, Char.ext_iff,
    UInt32.ext_iff] at safe
  simp only [JsonText.isPlain, Bool.and_eq_true, decide_eq_true_eq, bne_iff_ne, ne_eq, Char.ext_iff, UInt32.ext_iff,
    Char.toNat]
  simp at *
  omega

theorem isPlain_of_version {c : Char} (version : isVersionChar c = true) : JsonText.isPlain c = true := by
  by_cases dot : c = '.'
  · subst dot
    decide
  · apply isPlain_of_safe
    simp only [isVersionChar, isSafeChar, Bool.or_eq_true, beq_iff_eq] at version ⊢
    tauto

theorem isSafeChar_of_hex {c : Char} (hex : isAsciiHexDigit c = true) : isSafeChar c = true := by
  simp only [isAsciiHexDigit, isSafeChar, isAsciiAlphanumeric, isAsciiUpper, isAsciiLower, Bool.or_eq_true,
    Bool.and_eq_true, decide_eq_true_eq, beq_iff_eq] at hex ⊢
  rcases hex with (digit | lower) | upper
  · exact Or.inl (Or.inl (Or.inr digit))
  · exact Or.inl (Or.inl (Or.inl (Or.inr ⟨lower.1, le_trans lower.2 (by decide)⟩)))
  · exact Or.inl (Or.inl (Or.inl (Or.inl ⟨upper.1, le_trans upper.2 (by decide)⟩)))

theorem isSafeChar_of_lowerHex {c : Char} (hex : isLowerHex c = true) : isSafeChar c = true := by
  apply isSafeChar_of_hex
  simp only [isLowerHex, isAsciiHexDigit, Bool.or_eq_true] at hex ⊢
  exact Or.inl hex

theorem all_plain {l : List Char} {p : Char → Bool} (each : ∀ c, p c = true → JsonText.isPlain c = true)
    (all : l.all p = true) : l.all JsonText.isPlain = true := by
  rw [List.all_eq_true] at all ⊢
  exact fun c member => each c (all c member)

/-- A safe name is written as it is, with its quotes. -/
theorem size_safeComponent {value : String} (safe : safeComponent value = true) :
    JsonText.size (JsonText.str value) ≤ 130 := by
  simp only [safeComponent, Bool.and_eq_true, decide_eq_true_eq] at safe
  rw [JsonText.size_str_plain (all_plain (fun _ => isPlain_of_safe) safe.2)]
  omega

/-- A hash is always of the same size: 64 digits and the quotation marks. -/
theorem size_hashValid {hash : String} (valid : hashValid hash = true) : JsonText.size (JsonText.str hash) = 66 := by
  simp only [hashValid, Bool.and_eq_true, decide_eq_true_eq] at valid
  rw [JsonText.size_str_plain (all_plain (fun c hex => isPlain_of_safe (isSafeChar_of_lowerHex hex)) valid.2), valid.1]

/-- Neither the version, nor the hash behind the slash, nor the slash itself is escaped, so a checked version is
written as it is. -/
theorem safeVersion_plain {value : String} (safe : safeVersion value = true) :
    value.toList.all JsonText.isPlain = true := by
  unfold safeVersion at safe
  split at safe
  · cases safe
  · rename_i version rest parts
    simp only [Bool.and_eq_true] at safe
    have joined : value.toList = ['/'].intercalate (version :: rest) := by
      rw [← parts, List.intercalate_splitOn]
    have first := all_plain (fun _ => isPlain_of_version) safe.1.2
    have last := safe.2
    rw [joined]
    unfold safeHash at last
    split at last
    · simpa [List.intercalate] using first
    · rename_i hash
      simp only [Bool.and_eq_true] at last
      have second := all_plain (fun c hex => isPlain_of_safe (isSafeChar_of_hex hex)) last.2
      have slash : JsonText.isPlain '/' = true := by decide
      simp [List.intercalate, List.intersperse, first, second, slash]
    · cases last

/-- At most 256 bytes and the quotation marks. -/
theorem size_safeVersion {value : String} (safe : safeVersion value = true) :
    JsonText.size (JsonText.str value) ≤ 258 := by
  rw [JsonText.size_str_plain (safeVersion_plain safe)]
  unfold safeVersion at safe
  split at safe
  · cases safe
  · simp only [Bool.and_eq_true, decide_eq_true_eq] at safe
    omega

theorem size_schema {n : Nat} (schema : n = 1) : JsonText.size (JsonText.nat n) = 1 := by
  rw [schema]
  rfl

theorem size_region (region : Region) : JsonText.size (JsonText.str region.name) = 4 := by
  cases region <;> rfl

theorem size_source (source : Source) : JsonText.size (JsonText.str source.name) ≤ 14 := by
  cases source <;> decide

/-- A field that may be missing takes no more room than a checked version under its key. -/
theorem size_optionalField (key : String) {value : Option String} (safe : ∀ v, value = some v → safeVersion v = true) :
    ((optionalField key value).map fun field => JsonText.size (JsonText.str field.1) + 1 + JsonText.size field.2).sum ≤
      JsonText.size (JsonText.str key) + 259 := by
  cases value with
  | none => simp [optionalField]
  | some v =>
    have bound := size_safeVersion (safe v rfl)
    simp only [optionalField, List.map_cons, List.map_nil, List.sum_cons, List.sum_nil]
    omega

/-- Readers accept receipts of at most 4096 bytes. -/
theorem size_receipt {r : ImportReceipt} (version : safeVersion r.version = true)
    (snapshot : safeComponent r.snapshot = true) (tables : r.tables ≤ 4096) (bytes : r.jsonBytes ≤ maxTotal)
    (resource : ∀ v, r.resourceVersion = some v → safeVersion v = true) : JsonText.size r.text ≤ 4096 := by
  have versionSize := size_safeVersion version
  have snapshotSize := size_safeComponent snapshot
  have tablesSize : JsonText.size (JsonText.nat r.tables) ≤ 4 := JsonText.size_nat_le (by omega) (by omega)
  have bytesSize : JsonText.size (JsonText.nat r.jsonBytes) ≤ 9 :=
    JsonText.size_nat_le (by omega) (by simp only [maxTotal] at bytes; omega)
  have sourceSize := size_source r.source
  have regionSize := size_region r.region
  have resourceSize := size_optionalField "resource_version" resource
  have fields : (optionalField "resource_version" r.resourceVersion).length ≤ 1 := by
    cases r.resourceVersion <;> simp [optionalField]
  have k1 : JsonText.size (JsonText.str "version") = 9 := rfl
  have k2 : JsonText.size (JsonText.str "snapshot") = 10 := rfl
  have k3 : JsonText.size (JsonText.str "tables") = 8 := rfl
  have k4 : JsonText.size (JsonText.str "json_bytes") = 12 := rfl
  have k5 : JsonText.size (JsonText.str "source") = 8 := rfl
  have k6 : JsonText.size (JsonText.str "region") = 8 := rfl
  have k7 : JsonText.size (JsonText.str "resource_version") = 18 := rfl
  rw [ImportReceipt.text, JsonText.size_obj]
  simp only [List.map_append, List.sum_append, List.map_cons, List.map_nil, List.sum_cons, List.sum_nil,
    List.length_append, List.length_cons, List.length_nil]
  omega

/-- Readers accept publication records of at most 4096 bytes; two names, a number and a time are far below that. -/
theorem size_publication {stamp : Instant → String} {p : Publication} (schema : p.schemaVersion = 1)
    (snapshot : safeComponent p.snapshot = true) (previous : ∀ q, p.previousSnapshot = some q → safeComponent q = true)
    (short : JsonText.size (JsonText.str (stamp p.publishedAt)) ≤ 64) : JsonText.size (p.text stamp) ≤ 4096 := by
  have snapshotSize := size_safeComponent snapshot
  have schemaSize := size_schema schema
  have previousSize : JsonText.size (nullable p.previousSnapshot) ≤ 130 := by
    cases named : p.previousSnapshot with
    | none => decide
    | some q => exact size_safeComponent (previous q named)
  have k1 : JsonText.size (JsonText.str "schema_version") = 16 := rfl
  have k2 : JsonText.size (JsonText.str "snapshot") = 10 := rfl
  have k3 : JsonText.size (JsonText.str "previous_snapshot") = 19 := rfl
  have k4 : JsonText.size (JsonText.str "published_at") = 14 := rfl
  rw [Publication.text, JsonText.size_obj]
  simp only [List.map_cons, List.map_nil, List.sum_cons, List.sum_nil, List.length_cons, List.length_nil]
  omega

/-- The same for the record of a retention pass, which holds one name. -/
theorem size_retention {r : RetentionRecord} (schema : r.schemaVersion = 1) (boundary : safeComponent r.boundary = true) :
    JsonText.size r.text ≤ 4096 := by
  have boundarySize := size_safeComponent boundary
  have schemaSize := size_schema schema
  have k1 : JsonText.size (JsonText.str "schema_version") = 16 := rfl
  have k2 : JsonText.size (JsonText.str "boundary") = 10 := rfl
  rw [RetentionRecord.text, JsonText.size_obj]
  simp only [List.map_cons, List.map_nil, List.sum_cons, List.sum_nil, List.length_cons, List.length_nil]
  omega

/-- A table keeps its stem: only the suffix of its name is replaced. -/
theorem replaceBin_stem {stem : List Char} (safe : stem.all isSafeChar = true) :
    replaceBin (stem ++ ['.', 'b', 'i', 'n']) = stem ++ ['.', 'j', 's', 'o', 'n'] := by
  induction stem with
  | nil => rfl
  | cons c stem ih =>
    obtain ⟨first, rest⟩ := by simpa only [List.all_cons, Bool.and_eq_true] using safe
    have dot : c ≠ '.' := by
      intro same
      subst same
      revert first
      decide
    rw [List.cons_append, replaceBin, ih rest, List.cons_append]
    exact fun _ same _ => dot same

/-- The one decomposition of a source name that the bounds on names rest on: a safe stem of at most 128 bytes with
its capital beginning, and the suffix, under which the table has the same stem. -/
theorem Entry.wellFormed_stem {e : Entry} (formed : e.wellFormed = true) :
    ∃ stem, e.name.toList = stem ++ ['.', 'b', 'i', 'n'] ∧ (jsonName e.name).toList = stem ++ ['.', 'j', 's', 'o', 'n'] ∧
      stem.all isSafeChar = true ∧ JsonText.size stem ≤ 128 ∧ ['M', 'a', 's', 't', 'e', 'r'].isPrefixOf stem = true ∧
      String.ofList stem ≠ "MasterManifest" := by
  unfold Entry.wellFormed stripSuffix at formed
  split at formed
  · cases formed
  · rename_i stem stripped
    split at stripped
    · rename_i suffix
      cases stripped
      obtain ⟨stem, whole⟩ := List.isSuffixOf_iff_suffix.mp suffix
      have cut : e.name.toList.take (e.name.toList.length - ['.', 'b', 'i', 'n'].length) = stem := by
        rw [← whole, List.length_append, Nat.add_sub_cancel, List.take_left]
      rw [cut] at formed
      simp only [Bool.and_eq_true, bne_iff_ne, ne_eq, safeComponent, decide_eq_true_eq, String.toList_ofList,
        JsonText.utf8ByteSize_eq_size, startsWith] at formed
      obtain ⟨⟨⟨⟨⟨⟨⟨other, start⟩, ⟨-, short⟩, safe⟩, -⟩, -⟩, -⟩, -⟩, -⟩ := formed
      refine ⟨stem, whole.symm, ?_, safe, short, start, other⟩
      rw [jsonName, String.toList_ofList, ← whole, replaceBin_stem safe]
    · cases stripped

/-- The name of a table is one byte longer than that of its source. -/
theorem size_jsonName {e : Entry} (formed : e.wellFormed = true) :
    JsonText.size (JsonText.str (jsonName e.name)) ≤ 135 := by
  obtain ⟨stem, -, json, safe, short, -⟩ := Entry.wellFormed_stem formed
  have suffix : ['.', 'j', 's', 'o', 'n'].all JsonText.isPlain = true := by decide
  have plain : (jsonName e.name).toList.all JsonText.isPlain = true := by
    rw [json, List.all_append, all_plain (fun _ => isPlain_of_safe) safe, suffix]
    rfl
  have five : JsonText.size ['.', 'j', 's', 'o', 'n'] = 5 := rfl
  rw [JsonText.size_str_plain plain, JsonText.utf8ByteSize_eq_size, json, JsonText.size_append, five]
  omega

/-- No table is taken for another file of a snapshot. -/
theorem jsonName_reserved {e : Entry} (formed : e.wellFormed = true) :
    jsonName e.name ∉ ["tables.json", "MasterManifest.json", "receipt.json", "publication.json"] := by
  obtain ⟨stem, -, json, -, -, start, other⟩ := Entry.wellFormed_stem formed
  obtain ⟨tail, rfl⟩ := List.isPrefixOf_iff_prefix.mp start
  have chars : ∀ name : String, jsonName e.name = name →
      name.toList = ['M', 'a', 's', 't', 'e', 'r'] ++ tail ++ ['.', 'j', 's', 'o', 'n'] := by
    intro name same
    rw [← same, json]
  intro member
  simp only [List.mem_cons, List.not_mem_nil, or_false] at member
  rcases member with same | same | same | same
  · cases (List.cons.inj (chars _ same)).1
  · have whole : ['M', 'a', 's', 't', 'e', 'r'] ++ ['M', 'a', 'n', 'i', 'f', 'e', 's', 't'] ++ ['.', 'j', 's', 'o', 'n'] =
        ['M', 'a', 's', 't', 'e', 'r'] ++ tail ++ ['.', 'j', 's', 'o', 'n'] := chars _ same
    have stem := List.append_cancel_right whole
    exact other (by rw [← stem]; rfl)
  · cases (List.cons.inj (chars _ same)).1
  · cases (List.cons.inj (chars _ same)).1

/-- Two tables of one name have the same stem, so they come from the same source name. -/
theorem jsonName_injective {a b : Entry} (first : a.wellFormed = true) (second : b.wellFormed = true)
    (same : jsonName a.name = jsonName b.name) : a.name = b.name := by
  obtain ⟨stem, bin, json, -⟩ := Entry.wellFormed_stem first
  obtain ⟨stem', bin', json', -⟩ := Entry.wellFormed_stem second
  have stems : stem = stem' := List.append_cancel_right (json.symm.trans ((congrArg String.toList same).trans json'))
  apply String.toList_inj.mp
  rw [bin, bin', stems]

def expectedNames (source : Manifest) : List String :=
  (source.files.map fun e => jsonName e.name).insertionSort (· ≤ ·)

theorem mem_expectedNames {source : Manifest} {name : String} :
    name ∈ expectedNames source ↔ ∃ e ∈ source.files, jsonName e.name = name := by
  rw [expectedNames, List.mem_insertionSort, List.mem_map]

structure Inventory.Valid (i : Inventory) (source : Manifest) : Prop where
  schema : i.schemaVersion = 1
  version : i.version = source.version
  names : i.files.map File.name = expectedNames source
  files : ∀ f ∈ i.files, f.size ≠ 0 ∧ f.size ≤ maxJson ∧ hashValid f.sha256 = true
  total : (i.files.map File.size).sum ≤ maxTotal

/-- The loop over index entries and expected names succeeds exactly if the names agree one by one and each entry
has a size and a hash within its bounds; its result is the sum of the sizes. By induction on the entries, with the
sum so far generalised. -/
theorem checkFiles_ok {files : List File} {names : List String} {start total : Nat}
    (count : files.length = names.length) :
    checkFiles (files.zip names) start = .ok total ↔
      files.map File.name = names ∧ (∀ f ∈ files, f.size ≠ 0 ∧ f.size ≤ maxJson ∧ hashValid f.sha256 = true) ∧
        total = start + (files.map File.size).sum := by
  induction files generalizing names start with
  | nil =>
    cases names with
    | cons => cases count
    | nil =>
      constructor
      · intro passed
        cases passed
        exact ⟨rfl, by simp, by simp⟩
      · intro ⟨_, _, sum⟩
        rw [sum]
        rfl
  | cons entry rest ih =>
    cases names with
    | nil => cases count
    | cons name names =>
      simp only [List.zip_cons_cons, checkFiles, List.mem_cons, forall_eq_or_imp, List.map_cons, List.sum_cons,
        List.cons.injEq]
      split
      · rename_i refused
        simp only [Bool.or_eq_true, bne_iff_ne, ne_eq, beq_iff_eq, decide_eq_true_eq, Bool.not_eq_true'] at refused
        constructor
        · intro impossible
          cases impossible
        · intro ⟨⟨named, _⟩, ⟨⟨size, bound, hash⟩, _⟩, _⟩
          rw [hash] at refused
          rcases refused with ((other | empty) | large) | bad
          · exact absurd named other
          · exact absurd empty size
          · omega
          · cases bad
      · rename_i passed
        simp only [Bool.or_eq_true, bne_iff_ne, ne_eq, beq_iff_eq, decide_eq_true_eq, Bool.not_eq_true', not_or,
          not_not, Bool.not_eq_false, Nat.not_lt] at passed
        obtain ⟨⟨⟨named, size⟩, bound⟩, hash⟩ := passed
        rw [ih (Nat.succ.inj count)]
        constructor
        · intro ⟨same, each, sum⟩
          exact ⟨⟨named, same⟩, ⟨⟨size, bound, hash⟩, each⟩, by omega⟩
        · intro ⟨⟨_, same⟩, ⟨_, each⟩, sum⟩
          exact ⟨same, each, by omega⟩

theorem length_expectedNames (source : Manifest) : (expectedNames source).length = source.files.length := by
  rw [expectedNames, List.length_insertionSort, List.length_map]

/-- The checks of an index amount to the five facts, in both directions: what is read can be taken for valid, and
what is valid is never refused. -/
theorem Inventory.validate_ok {i : Inventory} {source : Manifest} : i.validate source = .ok () ↔ i.Valid source := by
  unfold Inventory.validate
  constructor
  · intro passed
    split at passed
    · cases passed
    · rename_i shape
      simp only [Bool.or_eq_true, bne_iff_ne, ne_eq, not_or, not_not] at shape
      obtain ⟨⟨schema, version⟩, count⟩ := shape
      simp only at passed
      split at passed
      · cases passed
      · rename_i total checked
        obtain ⟨names, each, sum⟩ := (checkFiles_ok (count.trans (length_expectedNames source).symm)).mp checked
        split at passed
        · cases passed
        · exact ⟨schema, version, names, each, by omega⟩
  · intro valid
    have count : i.files.length = source.files.length := by
      rw [← length_expectedNames, ← valid.names, List.length_map]
    have checked : checkFiles (i.files.zip (expectedNames source)) 0 = .ok (i.files.map File.size).sum :=
      (checkFiles_ok (count.trans (length_expectedNames source).symm)).mpr ⟨valid.names, valid.files, by omega⟩
    have total := valid.total
    rw [if_neg (by simp [valid.schema, valid.version, count])]
    simp only
    rw [expectedNames] at checked
    rw [checked]
    exact if_neg (Nat.not_lt.mpr total)

/-- Sorting forgets the order of the manifest. -/
theorem expectedNames_perm {source other : Manifest} (perm : source.files.Perm other.files) :
    expectedNames source = expectedNames other := by
  have names : (expectedNames source).Perm (expectedNames other) :=
    ((List.perm_insertionSort _ _).trans (perm.map _)).trans (List.perm_insertionSort _ _).symm
  exact names.eq_of_pairwise' (List.pairwise_insertionSort _ _) (List.pairwise_insertionSort _ _)

/-- An inventory does not depend on the order of the manifest. -/
theorem Inventory.Valid.perm {i : Inventory} {source other : Manifest} (valid : i.Valid source)
    (version : source.version = other.version) (perm : source.files.Perm other.files) : i.Valid other where
  schema := valid.schema
  version := valid.version.trans version
  names := valid.names.trans (expectedNames_perm perm)
  files := valid.files
  total := valid.total

/-- Every file of an inventory is a table of its manifest. -/
theorem Inventory.Valid.entry {i : Inventory} {source : Manifest} {f : File} (valid : i.Valid source)
    (member : f ∈ i.files) : ∃ e ∈ source.files, jsonName e.name = f.name :=
  mem_expectedNames.mp (valid.names ▸ List.mem_map_of_mem member)

/-- No file of a valid index overwrites a record of the snapshot. -/
theorem Inventory.Valid.reserved {i : Inventory} {source : Manifest} {f : File} (valid : i.Valid source)
    (formed : ∀ e ∈ source.files, e.wellFormed = true) (member : f ∈ i.files) :
    f.name ∉ ["tables.json", "MasterManifest.json", "receipt.json", "publication.json"] := by
  obtain ⟨e, inside, same⟩ := valid.entry member
  exact same ▸ jsonName_reserved (formed e inside)

/-- There are as many files as entries of the manifest, which are at most 4096. -/
theorem Inventory.Valid.count {i : Inventory} {source : Manifest} (valid : i.Valid source) (manifest : source.Valid) :
    i.files.length ≤ 4096 := by
  have bound := manifest.count
  rw [← length_expectedNames, ← valid.names, List.length_map] at bound
  exact bound

/-- Readers accept an index of at most 1 MiB: 4096 tables with names of at most 133 bytes fit. -/
theorem size_inventory {i : Inventory} {source : Manifest} (valid : i.Valid source) (manifest : source.Valid) :
    JsonText.size i.text ≤ maxIndex := by
  have k1 : JsonText.size (JsonText.str "name") = 6 := rfl
  have k2 : JsonText.size (JsonText.str "size") = 6 := rfl
  have k3 : JsonText.size (JsonText.str "sha256") = 8 := rfl
  have k4 : JsonText.size (JsonText.str "schema_version") = 16 := rfl
  have k5 : JsonText.size (JsonText.str "version") = 9 := rfl
  have k6 : JsonText.size (JsonText.str "files") = 7 := rfl
  have each : ∀ f ∈ i.files, JsonText.size f.text ≤ 237 := by
    intro f member
    obtain ⟨-, bound, hash⟩ := valid.files f member
    have hashSize := size_hashValid hash
    have sizeSize : JsonText.size (JsonText.nat f.size) ≤ 8 :=
      JsonText.size_nat_le (by omega) (by simp only [maxJson] at bound; omega)
    have nameSize : JsonText.size (JsonText.str f.name) ≤ 135 := by
      obtain ⟨e, there, same⟩ := valid.entry member
      rw [← same]
      exact size_jsonName (manifest.entries e there)
    rw [File.text, JsonText.size_obj]
    simp only [List.map_cons, List.map_nil, List.sum_cons, List.sum_nil, List.length_cons, List.length_nil]
    omega
  have count := valid.count manifest
  have sum : ((i.files.map File.text).map JsonText.size).sum ≤ (i.files.map File.text).length * 237 :=
    JsonText.sum_size_le (by simpa using each)
  rw [List.length_map] at sum
  have versionSize : JsonText.size (JsonText.str i.version) ≤ 258 := valid.version ▸ size_safeVersion manifest.version
  have schemaSize := size_schema valid.schema
  rw [Inventory.text, JsonText.size_obj]
  simp only [List.map_cons, List.map_nil, List.sum_cons, List.sum_nil, List.length_cons, List.length_nil,
    JsonText.size_arr, List.length_map, maxIndex]
  omega

end SiriusProxy.Master
