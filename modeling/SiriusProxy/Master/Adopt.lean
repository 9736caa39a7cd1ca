import SiriusProxy.Master.Git
import SiriusProxy.Master.Mirror

namespace SiriusProxy.Master.Git
open Reads (Ensures)

variable {B : Type} {lib : Formats B} {scope : Scope} {layout : Layout} {prepared : Prepared B} {source : Manifest}

section Prepare

/-- What every manifest that `manifest` returns is. -/
structure Sound (scope : Scope) (p : PublishedManifest) : Prop where
  valid : scope.valid = true
  scope : p.scope = scope
  schema : p.schemaVersion = 1
  version : p.version = p.sourceManifest.version
  source : p.sourceManifest.Valid
  index : Inventory.Valid ⟨1, p.version, p.files⟩ p.sourceManifest
  resource : ∀ v, p.resourceVersion = some v → safeVersion v = true

/-- The provenance of a snapshot names its source as it was read, and a resource version only where the recorded
one passes the version check. -/
theorem provenance_ok {snapshot : String} {source : Manifest} {receipt : ReceiptValue} {p : Provenance}
    (passed : provenance snapshot source receipt = .ok p) :
    p.source = source ∧ ∀ v, p.resourceVersion = some v → safeVersion v = true := by
  unfold provenance at passed
  split at passed
  · cases passed
  · split at passed
    · rename_i resource region recorded _
      cases passed
      refine ⟨rfl, fun v same => ?_⟩
      cases same
      unfold recordedResourceVersion at recorded
      split at recorded
      · cases recorded
      · cases recorded
      · split at recorded
        · rename_i safe
          cases recorded
          exact safe
        · cases recorded
    · cases passed

/-- A source that is read with its provenance is valid, whatever the files hold: the parser refuses every other
one, and a receipt is taken only for the source it stands beside. -/
theorem ensures_source (lib : Serde B) (snapshot : String) :
    Ensures (fun p : Provenance => p.source.Valid ∧ ∀ v, p.resourceVersion = some v → safeVersion v = true)
      (sourceWithProvenance lib snapshot) := by
  refine (Ensures.any _).bind fun bytes _ => Ensures.bind (P := Manifest.Valid) ?_ fun source valid => ?_
  · cases parsed : Manifest.parse lib bytes with
    | error e => trivial
    | ok source => exact (Manifest.parse_ok.mp parsed).2.2
  · refine (Ensures.any _).bind fun text _ => ?_
    split
    · trivial
    · rename_i receipt read
      cases passed : provenance snapshot source receipt with
      | error e => trivial
      | ok p =>
        obtain ⟨same, resource⟩ := provenance_ok passed
        exact ⟨same ▸ valid, resource⟩

/-- An index that is read, from its file or computed from the tables, has passed the check against the
source manifest. -/
theorem ensures_inventory (lib : Serde B) (source : Manifest) :
    Ensures (fun i : Inventory => i.Valid source) (inventory lib source) := by
  have checked : ∀ value, Ensures (fun i : Inventory => i.Valid source) (inventoryChecked (B := B) source value) := by
    intro value
    unfold inventoryChecked
    cases passed : value.validate source with
    | error e => trivial
    | ok u => exact Inventory.validate_ok.mp passed
  intro answer
  cases answer with
  | some node => exact (Ensures.any _).bind fun value _ => checked value
  | none => exact (Ensures.any _).bind fun value _ => checked value

/-- Every document that the reader returns is the text of a published manifest all of whose parts passed their
checks. Nothing is assumed of the disk: each fact comes from a check on the way. -/
theorem ensures_manifest (lib : Serde B) (snapshot : Option String) (scope : Scope) :
    Ensures (fun document : Document B => ∃ p, document.bytes = lib.ofPublished p ∧ Sound scope p)
      (manifest lib snapshot scope) := by
  unfold manifest
  split
  · trivial
  · rename_i valid
    have inside : ∀ name, Ensures (fun document : Document B => ∃ p, document.bytes = lib.ofPublished p ∧ Sound scope p)
        (manifestOf lib name scope) := by
      intro name
      refine (Ensures.any _).bind fun _ _ => (ensures_source lib name).bind fun p facts => ?_
      split
      · trivial
      · refine (ensures_inventory lib p.source.sorted).bind fun i index => ?_
        refine ⟨published lib scope name p i, rfl, by simpa using valid, rfl, rfl, rfl, ?_, ?_, facts.2⟩
        · exact facts.1.perm (sorted_perm p.source)
        · exact ⟨rfl, rfl, index.names, index.files, index.total⟩
    cases snapshot with
    | some name => exact (inside name).zoom _
    | none => exact (Ensures.any _).bind fun name _ => (inside name).zoom _

/-- What a successful `prepare` leaves. -/
structure Ready (lib : Formats B) (scope : Scope) (layout : Layout) (prepared : Prepared B) : Prop where
  sound : Sound scope prepared.manifest
  hash : hashValid prepared.manifest.contentSha256 = true
  staged : ∃ asset, assetVersion layout prepared.manifest = .ok asset ∧
    prepared.names = (prepared.manifest.files.map File.name ++ [(closing lib prepared.manifest asset).1]).insertionSort (· ≤ ·) ∧
    prepared.staging (closing lib prepared.manifest asset).1 = some (closing lib prepared.manifest asset).2

/-- The loop over the tables adds their names in the order of the index. Where a table cannot be read or does not
fit its entry there is no result, so nothing is to be shown. -/
theorem ensures_stageTables {region : Region} {snapshot : String} {files : List File} {staging : String → Option B}
    {names : List String} :
    Ensures (fun staged : (String → Option B) × List String => staged.2 = names ++ files.map File.name)
      (stageTables lib layout region snapshot files staging names) := by
  induction files generalizing staging names with
  | nil => exact (List.append_nil _).symm
  | cons f rest ih =>
    unfold stageTables
    split
    · trivial
    split
    · trivial
    refine (Ensures.any _).bind fun document _ => ?_
    split
    · trivial
    split
    · trivial
    · rename_i bytes _
      have further := @ih (Function.update staging f.name (some bytes)) (names ++ [f.name])
      simpa using further

/-- A preparation that succeeds has read a sound manifest with a valid content hash, and the closing file of its
layout is the last one that it stages. -/
theorem ensures_prepare (lib : Formats B) (owned : Except Error Unit) (scope : Scope) (layout : Layout) :
    Ensures (Ready lib scope layout) (prepare lib owned scope layout) := by
  refine (Ensures.any _).bind fun _ _ => ((ensures_manifest lib.toSerde none scope).mapError _).bind fun document read => ?_
  obtain ⟨p, text, sound⟩ := read
  rw [text, lib.published_ofPublished]
  simp only
  split
  · trivial
  · rename_i hash
    split
    · trivial
    · rename_i asset found
      refine ensures_stageTables.bind fun staged names => ?_
      have valid : hashValid p.contentSha256 = true := by simpa using hash
      refine ⟨sound, valid, asset, found, ?_, Function.update_self ..⟩
      rw [finish, names]
      rfl

end Prepare

section Names

/-- The suffix is all that a file name has besides letters, digits, hyphens and underscores. -/
def Plain (name : String) : Prop := ∃ stem, name.toList = stem ++ ['.', 'j', 's', 'o', 'n'] ∧ stem ≠ [] ∧
  stem.all isSafeChar = true ∧ JsonText.size stem ≤ 128

/-- Both closing files and every table have plain names, which is what a reader of the commit accepts in a tree. -/
theorem plain_publicationName : Plain publicationName := by
  refine ⟨"sirius-publication".toList, rfl, by decide, by decide, by decide⟩

theorem plain_versionName : Plain versionName := by
  refine ⟨"version".toList, rfl, by decide, by decide, by decide⟩

/-- A table begins with a capital letter, and neither of the closing files does. So no table is taken for the file
that closes a publication. -/
theorem table_name {name : String} (valid : source.Valid) (member : name ∈ expectedNames source) :
    Plain name ∧ name ≠ publicationName ∧ name ≠ versionName := by
  obtain ⟨e, there, rfl⟩ := mem_expectedNames.mp member
  obtain ⟨stem, -, json, safe, short, start, -⟩ := Entry.wellFormed_stem (valid.entries e there)
  obtain ⟨tail, rfl⟩ := List.isPrefixOf_iff_prefix.mp start
  refine ⟨⟨_, json, nofun, safe, short⟩, ?_, ?_⟩
  · intro same
    rw [same] at json
    exact absurd (List.cons.inj json).1 (by decide)
  · intro same
    rw [same] at json
    exact absurd (List.cons.inj json).1 (by decide)

/-- Distinct entries of a valid manifest have distinct names, and the names of their tables determine those of
the entries. -/
theorem expectedNames_nodup (valid : source.Valid) : (expectedNames source).Nodup := by
  refine (List.perm_insertionSort _ _).nodup_iff.mpr (List.Nodup.map_on ?_ valid.distinct.of_map)
  intro a first b second same
  have names := jsonName_injective (valid.entries a first) (valid.entries b second) same
  exact List.inj_on_of_nodup_map valid.distinct first second names

/-- The file that closes a publication. -/
def lastName : Layout → String
  | .native => publicationName
  | .indentedRoot => versionName

/-- The layout decides the name of the closing file; the asset version is part of its content only. -/
theorem closing_name {p : PublishedManifest} {asset : Option String} (found : assetVersion layout p = .ok asset) :
    (closing lib p asset).1 = lastName layout := by
  unfold assetVersion at found
  split at found
  · cases found
    rfl
  · cases found
    rfl
  · cases found

theorem Ready.tables (ready : Ready lib scope layout prepared) :
    prepared.manifest.files.map File.name = expectedNames prepared.manifest.sourceManifest := ready.sound.index.names

/-- The staged names are those of the tables and the closing one, sorted: what `mktree` lists and what a reader
compares the tree with. -/
theorem Ready.names (ready : Ready lib scope layout prepared) : prepared.names =
    (expectedNames prepared.manifest.sourceManifest ++ [lastName layout]).insertionSort (· ≤ ·) := by
  obtain ⟨asset, found, names, -⟩ := ready.staged
  rw [names, closing_name found, ready.tables]

theorem Ready.perm (ready : Ready lib scope layout prepared) :
    prepared.names.Perm (expectedNames prepared.manifest.sourceManifest ++ [lastName layout]) := by
  rw [ready.names]
  exact List.perm_insertionSort _ _

/-- No name that a publication commits needs quoting or escaping in the listing of a tree. -/
theorem Ready.plain (ready : Ready lib scope layout prepared) {name : String} (member : name ∈ prepared.names) :
    Plain name := by
  rcases List.mem_append.mp (ready.perm.mem_iff.mp member) with table | last
  · exact (table_name ready.sound.source table).1
  · rw [List.mem_singleton.mp last]
    cases layout with
    | native => exact plain_publicationName
    | indentedRoot => exact plain_versionName

theorem lastName_new (layout : Layout) (valid : source.Valid) : lastName layout ∉ expectedNames source := by
  intro member
  obtain ⟨-, first, second⟩ := table_name valid member
  cases layout with
  | native => exact first rfl
  | indentedRoot => exact second rfl

/-- The names are strictly increasing, so a sorted listing of the tree has them in this very order and
none twice. -/
theorem Ready.ordered (ready : Ready lib scope layout prepared) : prepared.names.Pairwise (· < ·) := by
  have sorted : prepared.names.Pairwise (· ≤ ·) := by
    rw [ready.names]
    exact List.pairwise_insertionSort _ _
  have distinct : prepared.names.Nodup := by
    refine ready.perm.nodup_iff.mpr (List.Nodup.append ?_ (List.nodup_singleton _) ?_)
    · exact expectedNames_nodup ready.sound.source
    · exact List.disjoint_singleton.mpr (lastName_new layout ready.sound.source)
  exact (sorted.and distinct).imp fun both => lt_of_le_of_ne both.1 both.2

/-- At most 4096 tables and one closing file, which is the bound of the reader on the entries of a tree. -/
theorem Ready.count (ready : Ready lib scope layout prepared) : prepared.names.length ≤ adoptTreeEntries := by
  have bound := ready.sound.source.count
  rw [ready.perm.length_eq, List.length_append, length_expectedNames, List.length_singleton, adoptTreeEntries]
  omega

/-- A letter, a digit, a hyphen or an underscore is no separator and no control character. The claim is about code
points, so it is left to arithmetic. -/
theorem accepted_of_safe {c : Char} (safe : isSafeChar c = true) : (c != '/' && c != '\\' && !isControl c) = true := by
  simp only [isSafeChar, isAsciiAlphanumeric, isAsciiUpper, isAsciiLower, isAsciiDigit, Bool.or_eq_true,
    Bool.and_eq_true, decide_eq_true_eq, beq_iff_eq, Char.le_def, UInt32.le_iff_toNat_le, Char.ext_iff,
    UInt32.ext_iff] at safe
  simp only [isControl, Bool.and_eq_true, Bool.not_eq_true', Bool.or_eq_false_iff, Bool.and_eq_false_iff,
    decide_eq_false_iff_not, bne_iff_ne, ne_eq, Char.ext_iff, UInt32.ext_iff, Char.toNat]
  simp at *
  omega

theorem Plain.chars {name : String} (plain : Plain name) :
    ∀ c ∈ name.toList, (c != '/' && c != '\\' && !isControl c) = true := by
  obtain ⟨stem, whole, -, safe, -⟩ := plain
  intro c member
  rw [whole] at member
  rcases List.mem_append.mp member with inside | suffix
  · exact accepted_of_safe (List.all_eq_true.mp safe c inside)
  · have each : ['.', 'j', 's', 'o', 'n'].all (fun c => c != '/' && c != '\\' && !isControl c) = true := by decide
    exact List.all_eq_true.mp each c suffix

/-- A plain name passes the reader's check of a tree entry: it is longer than its suffix, ends in it, does not
begin with a dot and has none of the refused characters. -/
theorem Plain.accepted {name : String} (plain : Plain name) : acceptedName name.toList = true := by
  have chars := List.all_eq_true.mpr plain.chars
  obtain ⟨stem, whole, nonempty, safe, -⟩ := plain
  have five : JsonText.size ['.', 'j', 's', 'o', 'n'] = 5 := rfl
  obtain ⟨c, rest, rfl⟩ := List.exists_cons_of_ne_nil nonempty
  have first : isSafeChar c = true := List.all_eq_true.mp safe c List.mem_cons_self
  have long : 5 < JsonText.size name.toList := by
    have wide := Char.utf8Size_pos c
    rw [whole, JsonText.size_append, JsonText.size_cons, five]
    omega
  have suffix : ['.', 'j', 's', 'o', 'n'].isSuffixOf name.toList = true :=
    List.isSuffixOf_iff_suffix.mpr ⟨c :: rest, whole.symm⟩
  have head : (name.toList.head? != some '.') = true := by
    rw [whole, List.cons_append, List.head?_cons, bne_iff_ne]
    rintro ⟨⟩
    exact absurd first (by decide)
  unfold acceptedName
  rw [decide_eq_true long, suffix, head, chars]
  rfl

theorem Plain.size {name : String} (plain : Plain name) : JsonText.size name.toList ≤ 133 := by
  obtain ⟨stem, whole, -, -, short⟩ := plain
  have five : JsonText.size ['.', 'j', 's', 'o', 'n'] = 5 := rfl
  rw [whole, JsonText.size_append, five]
  omega

/-- No name has the character that ends an entry of `ls-tree -z`, so the listing is cut where the entries end. -/
theorem Plain.visible {name : String} (plain : Plain name) : '\x00' ∉ name.toList :=
  fun member => absurd (plain.chars _ member) (by decide)

end Names

section Sizes
variable {p : PublishedManifest}

/-- The source name of a table is a stem of at most 128 bytes and a suffix, in quotation marks. -/
theorem size_binName {e : Entry} (formed : e.wellFormed = true) : JsonText.size (JsonText.str e.name) ≤ 134 := by
  obtain ⟨stem, bin, -, safe, short, -⟩ := Entry.wellFormed_stem formed
  have suffix : ['.', 'b', 'i', 'n'].all JsonText.isPlain = true := by decide
  have plain : e.name.toList.all JsonText.isPlain = true := by
    rw [bin, List.all_append, all_plain (fun _ => isPlain_of_safe) safe, suffix]
    rfl
  have four : JsonText.size ['.', 'b', 'i', 'n'] = 4 := rfl
  rw [JsonText.size_str_plain plain, JsonText.utf8ByteSize_eq_size, bin, JsonText.size_append, four]
  omega

/-- The hash of an entry has 64 hexadecimal digits, none of which is escaped, and its size is at most the limit of
an encrypted file. -/
theorem wellFormed_record {e : Entry} (formed : e.wellFormed = true) :
    JsonText.size (JsonText.str e.hash) = 66 ∧ e.size ≤ maxEncrypted := by
  unfold Entry.wellFormed at formed
  split at formed
  · cases formed
  · simp only [Bool.and_eq_true, decide_eq_true_eq] at formed
    obtain ⟨⟨⟨⟨⟨-, length⟩, hex⟩, -⟩, bound⟩, -⟩ := formed
    refine ⟨?_, bound⟩
    rw [JsonText.size_str_plain (all_plain (fun c safe => isPlain_of_safe (isSafeChar_of_hex safe)) hex), length]

/-- An entry of the source manifest, indented, within the bound that all of its fields being as long as they may
be gives. -/
theorem size_entry {e : Entry} (formed : e.wellFormed = true) : JsonText.size (Entry.pretty e) ≤ 271 := by
  have k1 : JsonText.size (JsonText.str "hash") = 6 := rfl
  have k2 : JsonText.size (JsonText.str "name") = 6 := rfl
  have k3 : JsonText.size (JsonText.str "size") = 6 := rfl
  obtain ⟨hash, bound⟩ := wellFormed_record formed
  have name := size_binName formed
  have size : JsonText.size (JsonText.nat e.size) ≤ 8 :=
    JsonText.size_nat_le (by omega) (by simp only [maxEncrypted] at bound; omega)
  refine (JsonText.size_prettyObj _ _).trans ?_
  simp only [List.map_cons, List.map_nil, List.sum_cons, List.sum_nil, List.length_cons, List.length_nil]
  omega

/-- The same for an entry of the index, whose name and digest are bounded by the manifest's checks. -/
theorem size_file {f : File} (name : JsonText.size (JsonText.str f.name) ≤ 135) (bound : f.size ≤ maxJson)
    (valid : hashValid f.sha256 = true) : JsonText.size (File.pretty f) ≤ 266 := by
  have k1 : JsonText.size (JsonText.str "name") = 6 := rfl
  have k2 : JsonText.size (JsonText.str "sha256") = 8 := rfl
  have k3 : JsonText.size (JsonText.str "size") = 6 := rfl
  have hash := size_hashValid valid
  have size : JsonText.size (JsonText.nat f.size) ≤ 8 :=
    JsonText.size_nat_le (by omega) (by simp only [maxJson] at bound; omega)
  refine (JsonText.size_prettyObj _ _).trans ?_
  simp only [List.map_cons, List.map_nil, List.sum_cons, List.sum_nil, List.length_cons, List.length_nil]
  omega

/-- The source manifest, with 4096 entries at most; the bound is linear in their number. -/
theorem size_manifest (valid : source.Valid) : JsonText.size (Manifest.pretty source) ≤ 1144000 := by
  have k1 : JsonText.size (JsonText.str "files") = 7 := rfl
  have k2 : JsonText.size (JsonText.str "version") = 9 := rfl
  have version := size_safeVersion valid.version
  have count := valid.count
  have each : ∀ item ∈ source.files.map Entry.pretty, JsonText.size item ≤ 271 := by
    intro item member
    obtain ⟨e, there, rfl⟩ := List.mem_map.mp member
    exact size_entry (valid.entries e there)
  have files : JsonText.size (JsonText.prettyArr 2 (source.files.map Entry.pretty)) ≤ _ :=
    JsonText.size_prettyArr_le each
  rw [List.length_map] at files
  refine (JsonText.size_prettyObj _ _).trans ?_
  simp only [List.map_cons, List.map_nil, List.sum_cons, List.sum_nil, List.length_cons, List.length_nil]
  omega

/-- Region and platform are among finitely many names, and the environment has at most 256 bytes and nothing
to escape. -/
theorem size_scope (valid : scope.valid = true) : JsonText.size (Scope.pretty scope) ≤ 400 := by
  have k1 : JsonText.size (JsonText.str "environment") = 13 := rfl
  have k2 : JsonText.size (JsonText.str "platform") = 10 := rfl
  have k3 : JsonText.size (JsonText.str "region") = 8 := rfl
  have region := size_region scope.region
  have platform : JsonText.size (JsonText.str scope.platform.name) ≤ 9 := by
    cases scope.platform <;> decide
  simp only [Scope.valid, Bool.and_eq_true, decide_eq_true_eq] at valid
  have plain : scope.environment.toList.all JsonText.isPlain = true := by
    refine all_plain (fun c environment => isPlain_of_safe ?_) valid.2
    simp only [isEnvironmentChar, isSafeChar, Bool.or_eq_true] at environment ⊢
    exact Or.inl environment
  have environment := JsonText.size_str_plain plain
  refine (JsonText.size_prettyObj _ _).trans ?_
  simp only [List.map_cons, List.map_nil, List.sum_cons, List.sum_nil, List.length_cons, List.length_nil]
  omega

/-- The committed metadata lists 4096 tables at most, twice: once in the source manifest and once in the index.
Both lists together stay within the limit of the reader, so what is committed can be read back. -/
theorem size_metadata (sound : Sound scope p) (valid : hashValid p.contentSha256 = true) :
    JsonText.size (Metadata.pretty (metadata p)) ≤ metadataLimit := by
  have k1 : JsonText.size (JsonText.str "content_sha256") = 16 := rfl
  have k2 : JsonText.size (JsonText.str "files") = 7 := rfl
  have k3 : JsonText.size (JsonText.str "schema_version") = 16 := rfl
  have k4 : JsonText.size (JsonText.str "scope") = 7 := rfl
  have k5 : JsonText.size (JsonText.str "source_manifest") = 17 := rfl
  have k6 : JsonText.size (JsonText.str "version") = 9 := rfl
  have hash := size_hashValid valid
  have schema := size_schema sound.schema
  have recorded : JsonText.size (Scope.pretty p.scope) ≤ 400 := size_scope (sound.scope ▸ sound.valid)
  have manifest := size_manifest sound.source
  have version : JsonText.size (JsonText.str p.version) ≤ 258 :=
    sound.version ▸ size_safeVersion sound.source.version
  have each : ∀ item ∈ p.files.map File.pretty, JsonText.size item ≤ 266 := by
    intro item member
    obtain ⟨f, there, rfl⟩ := List.mem_map.mp member
    obtain ⟨-, bound, digest⟩ := sound.index.files f there
    obtain ⟨e, entry, same⟩ := sound.index.entry there
    exact size_file (same ▸ size_jsonName (sound.source.entries e entry)) bound digest
  have count : p.files.length ≤ 4096 := sound.index.count sound.source
  have files : JsonText.size (JsonText.prettyArr 1 (p.files.map File.pretty)) ≤ _ :=
    JsonText.size_prettyArr_le each
  rw [List.length_map] at files
  refine (JsonText.size_prettyObj _ _).trans ?_
  simp only [metadata, List.map_cons, List.map_nil, List.sum_cons, List.sum_nil, List.length_cons, List.length_nil,
    metadataLimit]
  omega

/-- The version file holds two checked versions and 42 bytes of its own. -/
theorem size_versionText {dataVersion asset : String} (safe : safeVersion dataVersion = true)
    (asset_safe : safeVersion asset = true) : JsonText.size (versionText dataVersion asset) ≤ commandLimit := by
  have lead : JsonText.size "\x7b\n  \"dataVersion\": ".toList = 19 := rfl
  have between : JsonText.size ",\n  \"assetVersion\": ".toList = 20 := rfl
  have closed : JsonText.size "\n\x7d\n".toList = 3 := rfl
  have first := size_safeVersion safe
  have second := size_safeVersion asset_safe
  unfold versionText
  rw [JsonText.size_append, JsonText.size_append, JsonText.size_append, JsonText.size_append, lead, between, closed,
    commandLimit]
  omega

end Sizes

end SiriusProxy.Master.Git
