import SiriusProxy.Master.Adopt
import SiriusProxy.Master.Hops

namespace SiriusProxy.Master.Git

variable {B : Type} {lib : Formats B} {scope : Scope} {layout : Layout} {prepared : Prepared B} {source : Manifest}

section Tree
variable {ids : Ids B} {staging : String → Option B} {names : List String} {tree entries : List TreeEntry}

/-- An entry as `commit_internal` writes it. -/
structure Stored (ids : Ids B) (staging : String → Option B) (e : TreeEntry) : Prop where
  mode : e.mode = "100644"
  kind : e.kind = "blob"
  staged : ∃ bytes, staging e.name = some bytes ∧ e.oid = ids.blob bytes
  oid : isOid e.oid.toList = true

/-- The input of `mktree` lists the staged names in their order, and each of its entries is a regular file whose
blob was written from the staged bytes. -/
theorem treeInput_ok (listed : treeInput ids staging names = .ok entries) :
    entries.map TreeEntry.name = names ∧ ∀ e ∈ entries, Stored ids staging e := by
  induction names generalizing entries with
  | nil =>
    cases listed
    exact ⟨rfl, fun e member => absurd member List.not_mem_nil⟩
  | cons name rest ih =>
    unfold treeInput at listed
    split at listed
    · cases listed
    · rename_i bytes staged
      split at listed
      · cases listed
      · rename_i hex
        split at listed
        · cases listed
        · rename_i others further
          cases listed
          obtain ⟨same, stored⟩ := ih further
          refine ⟨congrArg (name :: ·) same, fun e member => ?_⟩
          rcases List.mem_cons.mp member with rfl | later
          · exact ⟨rfl, rfl, ⟨bytes, staged, rfl⟩, by simpa using hex⟩
          · exact stored e later

/-- Git sorts the entries of a tree. The input is sorted already, so the tree that is stored is the list that
was sent. -/
theorem mktree_sorted (sorted : (entries.map TreeEntry.name).Pairwise (· < ·)) : mktree entries = entries := by
  have ordered : entries.Pairwise fun a b => a.name ≤ b.name :=
    (List.pairwise_map.mp sorted).imp fun less => le_of_lt less
  exact ordered.insertionSort_eq

/-- A line of `ls-tree` without its end. -/
def line (e : TreeEntry) : List Char :=
  e.mode.toList ++ ' ' :: (e.kind.toList ++ ' ' :: (e.oid.toList ++ '\t' :: e.name.toList))

theorem isOid_chars {oid : List Char} (hex : isOid oid = true) {c : Char} (member : c ∈ oid) :
    isLowerHex c = true := by
  simp only [isOid, Bool.and_eq_true] at hex
  exact List.all_eq_true.mp hex.2 c member

/-- An object id consists of lower-case hexadecimal digits. So it has none of the separators of the two listings,
which is why they can be cut apart again. -/
theorem isOid_absent {oid : List Char} (hex : isOid oid = true) {c : Char} (other : isLowerHex c = false) :
    c ∉ oid := by
  intro member
  rw [isOid_chars hex member] at other
  cases other

theorem Stored.line {e : TreeEntry} (stored : Stored ids staging e) :
    line e = ("100644 blob ".toList ++ e.oid.toList) ++ '\t' :: e.name.toList := by
  rw [Git.line, stored.mode, stored.kind]
  rfl

theorem dropPrefix_append (literal rest : List Char) : (literal ++ rest).dropPrefix? literal = some rest :=
  List.dropPrefix?_append_of_beq rest (beq_self_eq_true literal)

/-- A name above all that are known is inserted at the end. -/
theorem insert_last {known : OrderedMap String String} {name blob : String}
    (above : ∀ k ∈ known.entries, k.1 < name) :
    (known.insert name blob).entries = known.entries ++ [(name, blob)] := by
  have before : known.entries.filter (fun k => decide (k.1 < name)) = known.entries :=
    List.filter_eq_self.mpr fun k member => decide_eq_true (above k member)
  have behind : known.entries.filter (fun k => decide (name < k.1)) = [] :=
    List.filter_eq_nil_iff.mpr fun k member later => lt_asymm (above k member) (of_decide_eq_true later)
  change known.entries.filter (fun k => decide (k.1 < name)) ++
    (name, blob) :: known.entries.filter (fun k => decide (name < k.1)) = _
  rw [before, behind]

/-- The reader takes a line of the listing apart at its tab. Header, id and name are what it asks for, so it goes
on with one more entry. -/
theorem Stored.read {e : TreeEntry} (stored : Stored ids staging e) (plain : Plain e.name) (rest : List (List Char))
    {known : OrderedMap String String} (room : known.size < adoptTreeEntries) :
    readEntries (Git.line e :: rest) known = readEntries rest (known.insert e.name e.oid) := by
  have absent : '\t' ∉ "100644 blob ".toList ++ e.oid.toList := by
    intro member
    rcases List.mem_append.mp member with literal | inside
    · exact absurd literal (by decide)
    · exact isOid_absent stored.oid (by decide) inside
  have full : (decide (adoptTreeEntries ≤ known.size) || !acceptedName e.name.toList) = false := by
    rw [decide_eq_false (Nat.not_le.mpr room), plain.accepted]
    rfl
  rw [readEntries, stored.line, Lines.splitOnce_append absent]
  simp only [dropPrefix_append, Option.filter_some, stored.oid, if_true, full, Bool.false_eq_true, if_false,
    String.ofList_toList]

/-- The reader takes in the lines of a sorted tree one by one. Every name is above those before it, so none
replaces another, and the entries it has gathered are those of the tree in the order of the tree. -/
theorem readEntries_lines (stored : ∀ e ∈ tree, Stored ids staging e) (plain : ∀ e ∈ tree, Plain e.name)
    (sorted : (tree.map TreeEntry.name).Pairwise (· < ·)) {known : OrderedMap String String}
    (above : ∀ k ∈ known.entries, ∀ e ∈ tree, k.1 < e.name)
    (room : known.size + tree.length ≤ adoptTreeEntries) :
    ∃ all, readEntries (tree.map line) known = .ok all ∧
      all.entries = known.entries ++ tree.map fun e => (e.name, e.oid) := by
  induction tree generalizing known with
  | nil => exact ⟨known, rfl, (List.append_nil _).symm⟩
  | cons e rest ih =>
    rw [List.length_cons] at room
    obtain ⟨first, later⟩ := List.pairwise_cons.mp sorted
    have last : (known.insert e.name e.oid).entries = known.entries ++ [(e.name, e.oid)] :=
      insert_last fun k member => above k member e List.mem_cons_self
    have grown : (known.insert e.name e.oid).size = known.size + 1 := by
      rw [OrderedMap.size, last, List.length_append]
      rfl
    have beyond : ∀ k ∈ (known.insert e.name e.oid).entries, ∀ d ∈ rest, k.1 < d.name := by
      intro k member d there
      rw [last] at member
      rcases List.mem_append.mp member with old | new
      · exact above k old d (List.mem_cons_of_mem e there)
      · rw [List.mem_singleton.mp new]
        exact first d.name (List.mem_map_of_mem there)
    obtain ⟨all, read, whole⟩ := ih (fun d there => stored d (List.mem_cons_of_mem e there))
      (fun d there => plain d (List.mem_cons_of_mem e there)) later beyond (by omega)
    refine ⟨all, ?_, ?_⟩
    · rw [List.map_cons, (stored e List.mem_cons_self).read (plain e List.mem_cons_self) _ (by omega), read]
    · rw [whole, last, List.append_assoc]
      rfl

/-- Reading the listing of a tree gives the tree's names and blobs. The induction over its lines is the lemma
before; here the text is cut at the characters that end them, of which no line contains one. -/
theorem readListing_tree (stored : ∀ e ∈ tree, Stored ids staging e) (plain : ∀ e ∈ tree, Plain e.name)
    (sorted : (tree.map TreeEntry.name).Pairwise (· < ·)) (room : tree.length ≤ adoptTreeEntries) :
    ∃ all, readListing (listing tree) = .ok all ∧ all.entries = tree.map fun e => (e.name, e.oid) := by
  have absent : ∀ text ∈ tree.map line, '\x00' ∉ text := by
    intro text member inside
    obtain ⟨e, there, rfl⟩ := List.mem_map.mp member
    rw [(stored e there).line] at inside
    rcases List.mem_append.mp inside with header | rest
    · rcases List.mem_append.mp header with literal | oid
      · exact absurd literal (by decide)
      · exact isOid_absent (stored e there).oid (by decide) oid
    · rcases List.mem_cons.mp rest with tab | name
      · exact absurd tab (by decide)
      · exact (plain e there).visible name
  have pieces : Lines.pieces '\x00' (listing tree) = (tree.map line, []) := Lines.pieces_flatMap absent
  have some : (tree.map line ++ [[]]).filter (fun piece => !piece.isEmpty) = tree.map line := by
    have each : ∀ text ∈ tree.map line, (!text.isEmpty) = true := by
      intro text member
      obtain ⟨e, there, rfl⟩ := List.mem_map.mp member
      rw [(stored e there).line]
      rfl
    rw [List.filter_append, List.filter_eq_self.mpr each]
    exact List.append_nil _
  have above : ∀ k ∈ (∅ : OrderedMap String String).entries, ∀ e ∈ tree, k.1 < e.name :=
    fun k member => absurd member List.not_mem_nil
  obtain ⟨all, read, whole⟩ := readEntries_lines stored plain sorted above ((Nat.zero_add _).trans_le room)
  refine ⟨all, ?_, whole⟩
  rw [readListing, pieces, some, read]

theorem size_oid {oid : List Char} (hex : isOid oid = true) : JsonText.size oid = 40 := by
  have ascii : ∀ c ∈ oid, c.utf8Size = 1 := fun c member =>
    JsonText.utf8Size_plain (isPlain_of_safe (isSafeChar_of_lowerHex (isOid_chars hex member)))
  simp only [isOid, Bool.and_eq_true, decide_eq_true_eq] at hex
  rw [JsonText.size_ascii ascii, hex.1]

/-- 4097 lines of at most 187 bytes. -/
theorem size_listing (stored : ∀ e ∈ tree, Stored ids staging e) (plain : ∀ e ∈ tree, Plain e.name)
    (room : tree.length ≤ adoptTreeEntries) : JsonText.size (listing tree) ≤ commandLimit := by
  have header : JsonText.size "100644 blob ".toList = 12 := rfl
  have tab : ('\t').utf8Size = 1 := rfl
  have nul : ('\x00').utf8Size = 1 := rfl
  have each : ∀ text ∈ tree.map line, JsonText.size (text ++ ['\x00']) ≤ 187 := by
    intro text member
    obtain ⟨e, there, rfl⟩ := List.mem_map.mp member
    have name := (plain e there).size
    rw [(stored e there).line]
    simp only [JsonText.size_append, JsonText.size_cons, JsonText.size_nil, header, tab, nul,
      size_oid (stored e there).oid]
    omega
  have total : JsonText.size (listing tree) ≤ (tree.map line).length * 187 := JsonText.size_flatMap_le each
  rw [List.length_map] at total
  simp only [adoptTreeEntries, commandLimit] at *
  omega

end Tree

section Log
variable {repository : Repository B} {oid head : String} {commit : Commit} {count depth : Nat} {rest : List Char}
  {log front : List (String × Commit)}

/-- A subject that starts as one of a publication. -/
def Sirius (subject : List Char) : Prop := "Sirius Master ".toList <+: subject

/-- The first-parent history of a commit comes to `oid` after so many commits without such a subject. -/
inductive Follows (commits : String → Option Commit) (oid : String) : Nat → String → Prop
  | here : Follows commits oid 0 oid
  | later {count : Nat} {parent head : String} {commit : Commit} (before : Follows commits oid count parent)
      (known : commits head = some commit) (first : commit.parents.head? = some parent)
      (foreign : ¬ Sirius commit.subject) : Follows commits oid (count + 1) head

theorem firstParents_root {commits : String → Option Commit} (found : commits head = some commit)
    (root : commit.parents = []) : firstParents commits (depth + 1) head = some [(head, commit)] := by
  unfold firstParents
  simp only [found, root]

theorem firstParents_parent {commits : String → Option Commit} {parent : String} {others : List String}
    (found : commits head = some commit) (parents : commit.parents = parent :: others) :
    firstParents commits (depth + 1) head = (firstParents commits depth parent).map ((head, commit) :: ·) := by
  conv_lhs => unfold firstParents
  simp only [found, parents]

/-- The repository is closed under parents, so a walk along them from a known commit is never lost. -/
theorem firstParents_some (known : repository.commits head = some commit) (depth : Nat) :
    ∃ log, firstParents repository.commits depth head = some log := by
  induction depth generalizing head commit with
  | zero => exact ⟨[], rfl⟩
  | succ depth ih =>
    cases parents : commit.parents with
    | nil => exact ⟨_, firstParents_root known parents⟩
    | cons parent others =>
      have there := repository.closed head commit parent known (parents ▸ List.mem_cons_self)
      obtain ⟨next, found⟩ := Option.isSome_iff_exists.mp there
      obtain ⟨log, walked⟩ := ih found
      exact ⟨(head, commit) :: log, by rw [firstParents_parent known parents, walked, Option.map_some]⟩

/-- Every commit of a walk is in the repository under the id it is listed with. -/
theorem firstParents_known (walked : firstParents repository.commits depth head = some log) :
    ∀ e ∈ log, repository.commits e.1 = some e.2 := by
  induction depth generalizing head log with
  | zero =>
    cases walked
    exact fun e member => absurd member List.not_mem_nil
  | succ depth ih =>
    cases found : repository.commits head with
    | none =>
      rw [firstParents, found] at walked
      cases walked
    | some commit =>
      cases parents : commit.parents with
      | nil =>
        rw [firstParents_root found parents] at walked
        cases walked
        intro e member
        rw [List.mem_singleton.mp member]
        exact found
      | cons parent others =>
        rw [firstParents_parent found parents] at walked
        obtain ⟨rest, further, rfl⟩ := Option.map_eq_some_iff.mp walked
        intro e member
        rcases List.mem_cons.mp member with rfl | later
        · exact found
        · exact ih further e later

/-- A publication less than `depth` commits behind the head is in the walk, and the commits before it are those
without its kind of subject. The induction is on the way from the publication to the head. -/
theorem firstParents_follows (following : Follows repository.commits oid count head)
    (known : repository.commits oid = some commit) (near : count < depth) :
    ∃ front back, firstParents repository.commits depth head = some (front ++ (oid, commit) :: back) ∧
      ∀ e ∈ front, ¬ Sirius e.2.subject := by
  induction following generalizing depth with
  | here =>
    obtain ⟨further, rfl⟩ := Nat.exists_eq_succ_of_ne_zero (Nat.ne_of_gt near)
    cases parents : commit.parents with
    | nil => exact ⟨[], [], firstParents_root known parents, fun e member => absurd member List.not_mem_nil⟩
    | cons parent others =>
      have there := repository.closed oid commit parent known (parents ▸ List.mem_cons_self)
      obtain ⟨next, found⟩ := Option.isSome_iff_exists.mp there
      obtain ⟨log, walked⟩ := firstParents_some found further
      refine ⟨[], log, ?_, fun e member => absurd member List.not_mem_nil⟩
      rw [firstParents_parent known parents, walked, Option.map_some, List.nil_append]
  | @later count parent head other before found first foreign ih =>
    obtain ⟨further, rfl⟩ := Nat.exists_eq_succ_of_ne_zero (Nat.ne_of_gt (Nat.zero_lt_of_lt near))
    obtain ⟨front, back, walked, others⟩ := ih (Nat.lt_of_succ_lt_succ near)
    obtain ⟨more, parents⟩ := List.head?_eq_some_iff.mp first
    refine ⟨(head, other) :: front, back, ?_, fun e member => ?_⟩
    · rw [firstParents_parent found parents, walked, Option.map_some, List.cons_append]
    · rcases List.mem_cons.mp member with rfl | later
      · exact foreign
      · exact others e later

theorem chomp_absent {text : List Char} (absent : '\r' ∉ text) : Lines.chomp text = text :=
  Lines.chomp_other fun _ last same => absent (same ▸ List.mem_of_getLast? last)

/-- The header line that Git puts before each commit is passed over. -/
theorem newest_commit {oid : List Char} (hex : isOid oid = true) (more : List (List Char)) :
    newest (Lines.chomp ("commit ".toList ++ oid) :: more) = newest more := by
  have absent : '\r' ∉ "commit ".toList ++ oid := by
    intro member
    rcases List.mem_append.mp member with literal | inside
    · exact absurd literal (by decide)
    · exact isOid_absent hex (by decide) inside
  rw [chomp_absent absent, newest, dropPrefix_append]
  simp only [Option.any_some, hex, if_true]

/-- No id starts like the header line of a commit. -/
theorem oid_not_commit {oid : List Char} (hex : isOid oid = true) (rest : List Char) :
    ((oid ++ rest).dropPrefix? "commit ".toList).any isOid = false := by
  cases found : (oid ++ rest).dropPrefix? "commit ".toList with
  | none => rfl
  | some tail =>
    obtain ⟨lead, whole, same⟩ := List.dropPrefix?_eq_some_iff.mp found
    rw [eq_of_beq same] at whole
    have long : 1 < oid.length := by
      simp only [isOid, Bool.and_eq_true, decide_eq_true_eq] at hex
      omega
    have second : oid[1] = 'o' := by
      have there : (oid ++ rest)[1]? = some 'o' := by
        rw [whole]
        rfl
      rw [List.getElem?_append_left long, List.getElem?_eq_getElem long] at there
      exact Option.some.inj there
    exact absurd (second ▸ List.getElem_mem long) (isOid_absent hex (by decide))

/-- A commit with another subject is passed over. -/
theorem newest_other {oid subject : List Char} (hex : isOid oid = true)
    (other : (Lines.chomp subject).dropPrefix? "Sirius Master ".toList = none) (more : List (List Char)) :
    newest (Lines.chomp (oid ++ '\t' :: subject) :: more) = newest more := by
  rw [Lines.chomp_append oid (by decide), newest, oid_not_commit hex,
    Lines.splitOnce_append (isOid_absent hex (by decide))]
  simp only [Bool.false_eq_true, if_false, hex, Bool.not_true, other]

/-- The first subject of a publication ends the search, with its commit and what its subject says. -/
theorem newest_own {oid subject rest : List Char} (hex : isOid oid = true)
    (own : (Lines.chomp subject).dropPrefix? "Sirius Master ".toList = some rest) (more : List (List Char)) :
    newest (Lines.chomp (oid ++ '\t' :: subject) :: more) = .ok (some (oid, rest)) := by
  rw [Lines.chomp_append oid (by decide), newest, oid_not_commit hex,
    Lines.splitOnce_append (isOid_absent hex (by decide))]
  simp only [Bool.false_eq_true, if_false, hex, Bool.not_true, own]

/-- A run of commits without such a subject is passed over, by induction on its length. A subject keeps its
beginning when a trailing carriage return is cut off. -/
theorem newest_foreign (hex : ∀ e ∈ front, isOid e.1.toList = true)
    (foreign : ∀ e ∈ front, ¬ Sirius e.2.subject)
    (more : List (List Char)) : newest ((logLines front).map Lines.chomp ++ more) = newest more := by
  induction front with
  | nil => rfl
  | cons e rest ih =>
    have own := hex e List.mem_cons_self
    have none : (Lines.chomp e.2.subject).dropPrefix? "Sirius Master ".toList = none := by
      refine Option.eq_none_iff_forall_ne_some.mpr fun tail found => foreign e List.mem_cons_self ?_
      obtain ⟨lead, whole, same⟩ := List.dropPrefix?_eq_some_iff.mp found
      rw [eq_of_beq same] at whole
      exact (List.prefix_append _ tail).trans (whole ▸ Lines.chomp_prefix e.2.subject)
    have later := ih (fun d member => hex d (List.mem_cons_of_mem e member))
      (fun d member => foreign d (List.mem_cons_of_mem e member))
    rw [logLines, List.flatMap_cons, List.map_append, List.append_assoc]
    change newest (Lines.chomp ("commit ".toList ++ e.1.toList) :: Lines.chomp (e.1.toList ++ '\t' :: e.2.subject) ::
      ((logLines rest).map Lines.chomp ++ more)) = _
    rw [newest_commit own, newest_other own none, later]

/-- What `recognize` finds in the log of a head that follows a publication: that publication, whatever lies
behind it. -/
theorem newest_follows (following : Follows repository.commits oid count head)
    (known : repository.commits oid = some commit) (near : count < adoptDepth)
    (own : commit.subject = "Sirius Master ".toList ++ rest) (clean : '\r' ∉ commit.subject) :
    ∃ log, firstParents repository.commits adoptDepth head = some log ∧
      newest (Lines.lines (logText log)) = .ok (some (oid.toList, rest)) := by
  obtain ⟨front, back, walked, foreign⟩ := firstParents_follows following known near
  have hex : ∀ e ∈ front ++ (oid, commit) :: back, isOid e.1.toList = true := fun e member =>
    repository.named e.1 e.2 (firstParents_known walked e member)
  have mine : isOid oid.toList = true := repository.named oid commit known
  have absent : ∀ text ∈ logLines (front ++ (oid, commit) :: back), '\n' ∉ text := by
    intro text member inside
    obtain ⟨e, there, which⟩ := List.mem_flatMap.mp member
    have none : '\n' ∉ e.1.toList := isOid_absent (hex e there) (by decide)
    simp only [List.mem_cons, List.not_mem_nil, or_false] at which
    rcases which with rfl | rfl
    · rcases List.mem_append.mp inside with literal | id
      · exact absurd literal (by decide)
      · exact none id
    · rcases List.mem_append.mp inside with id | subject
      · exact none id
      · rcases List.mem_cons.mp subject with tab | line
        · exact absurd tab (by decide)
        · exact e.2.oneLine line
  have found : (Lines.chomp commit.subject).dropPrefix? "Sirius Master ".toList = some rest := by
    rw [chomp_absent clean, own, dropPrefix_append]
  refine ⟨_, walked, ?_⟩
  have read : Lines.lines (logText (front ++ (oid, commit) :: back)) =
      (logLines (front ++ (oid, commit) :: back)).map Lines.chomp := Lines.lines_flatMap absent
  have cut : (logLines (front ++ (oid, commit) :: back)).map Lines.chomp = (logLines front).map Lines.chomp ++
      Lines.chomp ("commit ".toList ++ oid.toList) :: Lines.chomp (oid.toList ++ '\t' :: commit.subject) ::
        (logLines back).map Lines.chomp := by
    rw [logLines, List.flatMap_append, List.map_append]
    rfl
  rw [read, cut, newest_foreign (fun e member => hex e (List.mem_append_left _ member)) foreign, newest_commit mine,
    newest_own mine found]

end Log

section Sample

/-- Documents of two kinds. -/
def sumSerde {C : Type} (lib : Serde B) (size : C → Nat) : Serde (B ⊕ C) where
  length := Sum.elim lib.length size
  sha256 := Sum.elim lib.sha256 fun _ => ""
  ofString s := .inl (lib.ofString s)
  utf8 := Sum.elim lib.utf8 fun _ => none
  ofManifest m := .inl (lib.ofManifest m)
  manifest := Sum.elim lib.manifest fun _ => none
  ofReceipt r := .inl (lib.ofReceipt r)
  receipt := Sum.elim lib.receipt fun _ => none
  ofInventory i := .inl (lib.ofInventory i)
  inventory := Sum.elim lib.inventory fun _ => none
  ofPublication p := .inl (lib.ofPublication p)
  publication := Sum.elim lib.publication fun _ => none
  ofRetention r := .inl (lib.ofRetention r)
  retention := Sum.elim lib.retention fun _ => none
  ofPublished p := .inl (lib.ofPublished p)
  published := Sum.elim lib.published fun _ => none
  ofContent c := .inl (lib.ofContent c)
  validJson := Sum.elim lib.validJson fun _ => true
  stamp := lib.stamp
  utf8_ofString := lib.utf8_ofString
  length_ofString := lib.length_ofString
  manifest_ofManifest := lib.manifest_ofManifest
  length_ofManifest := lib.length_ofManifest
  manifest_shortest b m read := by
    cases b with
    | inl b => exact lib.manifest_shortest b m read
    | inr c => cases read
  receipt_ofReceipt := lib.receipt_ofReceipt
  length_ofReceipt := lib.length_ofReceipt
  inventory_ofInventory := lib.inventory_ofInventory
  length_ofInventory := lib.length_ofInventory
  publication_ofPublication := lib.publication_ofPublication
  length_ofPublication := lib.length_ofPublication
  stamp_short := lib.stamp_short
  retention_ofRetention := lib.retention_ofRetention
  length_ofRetention := lib.length_ofRetention
  published_ofPublished := lib.published_ofPublished

/-- Two strings as `version_document` writes them. -/
def readVersion (text : List Char) : Option (String × String) := do
  let rest ← text.dropPrefix? "\x7b\n  \"dataVersion\": \"".toList
  let (dataVersion, rest) ← Lines.splitOnce '"' rest
  let rest ← rest.dropPrefix? ",\n  \"assetVersion\": \"".toList
  let (asset, _) ← Lines.splitOnce '"' rest
  some (String.ofList dataVersion, String.ofList asset)

theorem plain_unquoted {s : String} (plain : s.toList.all JsonText.isPlain = true) : '"' ∉ s.toList :=
  fun member => absurd (List.all_eq_true.mp plain _ member) (by decide)

theorem readVersion_text {dataVersion asset : String} (first : dataVersion.toList.all JsonText.isPlain = true)
    (second : asset.toList.all JsonText.isPlain = true) :
    readVersion (versionText dataVersion asset) = some (dataVersion, asset) := by
  have whole : versionText dataVersion asset = "\x7b\n  \"dataVersion\": \"".toList ++ (dataVersion.toList ++ '"' ::
      (",\n  \"assetVersion\": \"".toList ++ (asset.toList ++ '"' :: "\n\x7d\n".toList))) := by
    have lead : "\x7b\n  \"dataVersion\": \"".toList = "\x7b\n  \"dataVersion\": ".toList ++ ['"'] := rfl
    have between : ",\n  \"assetVersion\": \"".toList = ",\n  \"assetVersion\": ".toList ++ ['"'] := rfl
    unfold versionText
    rw [JsonText.str_plain first, JsonText.str_plain second, lead, between]
    simp only [List.append_assoc, List.cons_append, List.nil_append]
  unfold readVersion
  rw [whole]
  simp only [dropPrefix_append, Lines.splitOnce_append (plain_unquoted first),
    Lines.splitOnce_append (plain_unquoted second), Option.bind_eq_bind, Option.bind_some, String.ofList_toList]

def sampleVersion : Doc ⊕ Metadata → Option (String × String)
  | .inl (.text text) => readVersion text.toList
  | _ => none

theorem sampleVersion_text (text : String) : sampleVersion (.inl (.text text)) = readVersion text.toList := rfl

def sampleFormats : Formats (Doc ⊕ Metadata) where
  toSerde := sumSerde sampleSerde fun m => JsonText.size m.pretty
  bytes _ := []
  ofBytes _ := .inl (.text "")
  ofMetadata := .inr
  recorded := Sum.elim (fun _ => none) fun m => some ⟨scopeValue m.scope, m.version, m.files.map File.name⟩
  versionDocument := sampleVersion
  recorded_ofMetadata _ := rfl
  length_ofMetadata _ := rfl
  versionDocument_ofString dataVersion asset first second := by
    refine (sampleVersion_text _).trans ?_
    rw [String.toList_ofList, readVersion_text first second]

def sampleDraft : Draft (Doc ⊕ Metadata) :=
  stage sampleFormats.toSerde (write (fun _ => none) "MasterA.json" (.inl (.table "[]" emptyTableSha))) sampleIndex
    (.inl (.manifest sampleManifest)) (sampleReceipt "master-a")

def sampleRoot : Root (Doc ⊕ Metadata) := (publish sampleFormats.toSerde sampleDraft {} 1 none).2

def samplePreparing : Except Error (Prepared (Doc ⊕ Metadata)) :=
  (Reads.run (fun _ => sampleRoot) 0 (prepare sampleFormats (.ok ()) sampleScope .native)).1

def tableOid : String := "0637a088a01e8ddab3bf3fa98dbe804cbde1a0dc"
def metadataOid : String := "a0d058eae4dfa11be9f573d662c0ba792f06d849"
def treeOid : String := "0df60efa60abfd6bd9654d35c5cc651150968572"
def publicationOid : String := "bc8529aa51589da94f59a8e48d705b0e6ed9f80b"
def followerOid : String := "b899ce93a280614096cb1541cf4090cb149b30bf"

def sampleIds : Ids (Doc ⊕ Metadata) where
  blob := Sum.elim (fun _ => tableOid) fun _ => metadataOid
  tree _ := treeOid
  commit c := if c.parents = [] then publicationOid else followerOid

def sampleTree : List TreeEntry :=
  [⟨"100644", "blob", tableOid, "MasterA.json"⟩, ⟨"100644", "blob", metadataOid, publicationName⟩]

/-- A commit of somebody else over the publication. -/
def follower : Commit where
  tree := treeOid
  parents := [publicationOid]
  subject := "Update the mirror".toList
  subjectBytes := 17
  oneLine := by decide

def sampleRepository : Repository (Doc ⊕ Metadata) where
  blobs oid :=
    if oid = tableOid then some (.inl (.table "[]" emptyTableSha))
    else if oid = metadataOid then some (.inr (metadata sampleTarget)) else none
  trees oid := if oid = treeOid then some sampleTree else none
  commits oid :=
    if oid = publicationOid then some (commitTree sampleTarget treeOid none)
    else if oid = followerOid then some follower else none
  named oid commit found := by
    split_ifs at found with first second
    · rw [first]
      decide +kernel
    · rw [second]
      decide +kernel
  closed oid commit parent found member := by
    split_ifs at found with first second
    · cases found
      exact absurd member List.not_mem_nil
    · cases found
      rw [List.mem_singleton.mp member, if_pos rfl]
      rfl

theorem follower_foreign : ¬ Sirius follower.subject := fun sirius =>
  absurd (List.isPrefixOf_iff_prefix.mpr sirius) (by decide)

end Sample

section Publication
variable {ids : Ids B} {parent : Option String} {before after : Repository B} {receipt : Receipt}
  {p : PublishedManifest}

/-- The subject of a publication is made of literals, the name of a region and a checked version, and none of them
has a control character. -/
theorem paragraph_visible (safe : safeVersion p.version = true) {c : Char} (control : c.toNat < 32) :
    c ∉ paragraph p := by
  intro member
  have named (region : Region) : region.name.toList.all JsonText.isPlain = true := by
    cases region <;> decide
  have literal : "Sirius Master ".toList.all JsonText.isPlain = true := by decide
  have plain : (paragraph p).all JsonText.isPlain = true := by
    have lead : ("Sirius Master ".toList ++ p.scope.region.name.toList).all JsonText.isPlain = true := by
      rw [List.all_append, literal, named]
      rfl
    have space : (' ' :: p.version.toList).all JsonText.isPlain = true := by
      rw [List.all_cons, safeVersion_plain safe]
      rfl
    unfold paragraph
    rw [List.all_append, lead, space, Bool.and_self]
  have visible := List.all_eq_true.mp plain c member
  simp only [JsonText.isPlain, Bool.and_eq_true, decide_eq_true_eq] at visible
  omega

/-- So Git has no line breaks to join in it and keeps it as it was written. -/
theorem subjectOf_paragraph (safe : safeVersion p.version = true) : subjectOf (paragraph p) = paragraph p := by
  have each : ∀ c ∈ paragraph p, (if c = '\n' then ' ' else c) = id c := by
    intro c member
    refine if_neg fun same => ?_
    subst same
    exact paragraph_visible safe (by decide) member
  rw [subjectOf, List.map_congr_left each, List.map_id]

/-- What Git keeps of a publication. -/
structure Kept (ids : Ids B) (prepared : Prepared B) (parent : Option String) (after : Repository B) : Prop where
  blobs : ∀ name bytes, name ∈ prepared.names → prepared.staging name = some bytes →
    after.blobs (ids.blob bytes) = some bytes
  tree : ∀ entries, treeInput ids prepared.staging prepared.names = .ok entries →
    after.trees (ids.tree (mktree entries)) = some (mktree entries)
  commit : ∀ entries, treeInput ids prepared.staging prepared.names = .ok entries →
    after.commits (ids.commit (publicationCommit ids prepared parent entries)) =
      some (publicationCommit ids prepared parent entries)

theorem create_ok {commit : Commit} (created : commitInternal.create ids prepared commit = .ok receipt) :
    receipt.commit = ids.commit commit := by
  unfold commitInternal.create at created
  split at created
  · cases created
  · cases created
    rfl

/-- A publication that says it has changed something has listed its staged files, and its commit is the one made of
that listing. -/
theorem commitInternal_changed (committed : commitInternal ids prepared parent before = .ok receipt)
    (changed : receipt.changed = true) : ∃ entries, treeInput ids prepared.staging prepared.names = .ok entries ∧
      receipt.commit = ids.commit (publicationCommit ids prepared parent entries) := by
  unfold commitInternal at committed
  cases listed : treeInput ids prepared.staging prepared.names with
  | error e =>
    rw [listed] at committed
    cases committed
  | ok entries =>
    rw [listed] at committed
    change (if !isOid (ids.tree (mktree entries)).toList then _ else _) = _ at committed
    refine ⟨entries, rfl, ?_⟩
    split at committed
    · cases committed
    split at committed
    · cases committed
    · split at committed
      · cases committed
        cases changed
      · exact create_ok committed
    · exact create_ok committed

/-- The entries of the tree as the recogniser reads them. -/
structure ReadTree (ids : Ids B) (prepared : Prepared B) (all : OrderedMap String String) : Prop where
  names : all.entries.map Prod.fst = prepared.names
  blobs : ∀ e ∈ all.entries, ∃ bytes, prepared.staging e.1 = some bytes ∧ e.2 = ids.blob bytes

variable {all : OrderedMap String String} {entries : List TreeEntry}

/-- A name that was not staged is not read. -/
theorem ReadTree.absent (read : ReadTree ids prepared all) {name : String} (other : name ∉ prepared.names) :
    all.get? name = none := by
  refine Option.eq_none_iff_forall_ne_some.mpr fun blob found => other ?_
  rw [← read.names]
  exact List.mem_map_of_mem (OrderedMap.get?_eq_some.mp found)

/-- A staged name is read with the blob of its bytes. -/
theorem ReadTree.found (read : ReadTree ids prepared all) {name : String} (member : name ∈ prepared.names) {bytes : B}
    (staged : prepared.staging name = some bytes) : all.get? name = some (ids.blob bytes) := by
  rw [← read.names] at member
  obtain ⟨⟨own, blob⟩, there, rfl⟩ := List.mem_map.mp member
  obtain ⟨other, same, rfl⟩ := read.blobs _ there
  cases staged.symm.trans same
  exact OrderedMap.get?_eq_some.mpr there

/-- What is prepared can be listed within the reader's limit, and the reader gets all of it back. -/
theorem Ready.read (ready : Ready lib scope layout prepared)
    (listed : treeInput ids prepared.staging prepared.names = .ok entries) :
    mktree entries = entries ∧ JsonText.size (listing entries) ≤ commandLimit ∧
      ∃ all, readListing (listing entries) = .ok all ∧ ReadTree ids prepared all := by
  obtain ⟨names, stored⟩ := treeInput_ok listed
  have sorted : (entries.map TreeEntry.name).Pairwise (· < ·) := names ▸ ready.ordered
  have plain : ∀ e ∈ entries, Plain e.name := fun e member => ready.plain (names ▸ List.mem_map_of_mem member)
  have room : entries.length ≤ adoptTreeEntries := by
    have count := ready.count
    rwa [← names, List.length_map] at count
  obtain ⟨all, read, whole⟩ := readListing_tree stored plain sorted room
  refine ⟨mktree_sorted sorted, size_listing stored plain room, all, read, ?_, ?_⟩
  · rw [whole, List.map_map, ← names]
    rfl
  · intro pair member
    rw [whole] at member
    obtain ⟨e, there, rfl⟩ := List.mem_map.mp member
    exact (stored e there).staged

/-- The closing file of the other layout is none of the staged names, as it is neither a table nor the closing file
of this one. -/
theorem Ready.other_absent (ready : Ready lib scope layout prepared) (other : Layout) (apart : other ≠ layout) :
    lastName other ∉ prepared.names := by
  intro member
  rcases List.mem_append.mp (ready.perm.mem_iff.mp member) with table | last
  · exact lastName_new other ready.sound.source table
  · have same := List.mem_singleton.mp last
    cases other with
    | native =>
      cases layout with
      | native => exact apart rfl
      | indentedRoot => exact absurd same (by decide)
    | indentedRoot =>
      cases layout with
      | native => exact absurd same (by decide)
      | indentedRoot => exact apart rfl

theorem Ready.last (ready : Ready lib scope layout prepared) : lastName layout ∈ prepared.names :=
  ready.perm.mem_iff.mpr (List.mem_append_right _ (List.mem_singleton_self _))

theorem Ready.native (ready : Ready lib scope .native prepared) :
    prepared.staging publicationName = some (lib.ofMetadata (metadata prepared.manifest)) := by
  obtain ⟨asset, found, -, staged⟩ := ready.staged
  cases found
  exact staged

theorem Ready.indented (ready : Ready lib scope .indentedRoot prepared) :
    ∃ asset, prepared.manifest.resourceVersion = some asset ∧
      prepared.staging versionName = some (versionBytes lib prepared.manifest.version asset) := by
  obtain ⟨asset, found, -, staged⟩ := ready.staged
  unfold assetVersion at found
  split at found
  · rename_i impossible
    cases impossible
  · rename_i version _ recorded
    cases found
    exact ⟨version, recorded, staged⟩
  · cases found

theorem command_ok {α : Type} {limit size : Nat} (fits : size ≤ limit) (result : α) :
    command limit size result = .ok result := if_neg (Nat.not_lt.mpr fits)

theorem fromValue_scopeValue (scope : Scope) : fromValue (canonical (scopeValue scope)) = some scope := by
  obtain ⟨region, environment, platform⟩ := scope
  cases region <;> cases platform <;> rfl

/-- Without the metadata the names of the tree are the tables. -/
theorem ReadTree.tables (read : ReadTree ids prepared all) (ready : Ready lib scope .native prepared) :
    (prepared.manifest.files.map File.name).insertionSort (· ≤ ·) =
      (all.erase publicationName).entries.map (·.1) := by
  have new : publicationName ∉ expectedNames prepared.manifest.sourceManifest :=
    lastName_new .native ready.sound.source
  have rest : (all.erase publicationName).entries.map (·.1) =
      prepared.names.filter fun name => decide (name ≠ publicationName) := by
    rw [← read.names, List.filter_map]
    rfl
  have kept : ((expectedNames prepared.manifest.sourceManifest ++ [publicationName]).filter
      fun name => decide (name ≠ publicationName)) = expectedNames prepared.manifest.sourceManifest := by
    have each : ∀ name ∈ expectedNames prepared.manifest.sourceManifest, decide (name ≠ publicationName) = true :=
      fun name member => decide_eq_true fun same => new (same ▸ member)
    rw [List.filter_append, List.filter_eq_self.mpr each, List.filter_cons_of_neg (by simp), List.filter_nil,
      List.append_nil]
  have tables := (ready.perm.filter fun name => decide (name ≠ publicationName)).trans (List.Perm.of_eq kept)
  rw [rest, ready.tables]
  refine ((List.perm_insertionSort _ _).trans tables.symm).eq_of_pairwise' (List.pairwise_insertionSort _ _) ?_
  exact (ready.ordered.filter _).imp fun less => le_of_lt less

/-- A native publication is recognised for its own scope and for no other. The committed metadata names the scope
and the tables, and both are compared with what is asked for and what is in the tree. -/
theorem recognizeNative_own (ready : Ready lib scope .native prepared) (read : ReadTree ids prepared all)
    (kept : Kept ids prepared parent after) (foreign : Scope) :
    recognizeNative lib after foreign prepared.manifest.version all =
      if foreign = scope then .ok () else .error .notAdoptable := by
  have other : all.get? versionName = none := read.absent (ready.other_absent .indentedRoot (by decide))
  have own : all.get? publicationName = some (ids.blob (lib.ofMetadata (metadata prepared.manifest))) :=
    read.found ready.last ready.native
  have bytes := kept.blobs publicationName _ ready.last ready.native
  have fits : lib.length (lib.ofMetadata (metadata prepared.manifest)) ≤ metadataLimit := by
    rw [lib.length_ofMetadata]
    exact size_metadata ready.sound ready.hash
  have recorded : lib.recorded (lib.ofMetadata (metadata prepared.manifest)) =
      some ⟨scopeValue prepared.manifest.scope, prepared.manifest.version, prepared.manifest.files.map File.name⟩ :=
    lib.recorded_ofMetadata _
  have same : fromValue (canonical (scopeValue prepared.manifest.scope)) = some scope := by
    rw [fromValue_scopeValue]
    exact congrArg some ready.sound.scope
  have tables := read.tables ready
  unfold recognizeNative
  simp only [other, own, bytes, command_ok fits, bind, Except.bind, recorded, same]
  rw [if_neg (by simp)]
  have equal : (prepared.manifest.version != prepared.manifest.version) = false := bne_self_eq_false _
  have listed : ((prepared.manifest.files.map File.name).insertionSort (· ≤ ·) !=
      (all.erase publicationName).entries.map (·.1)) = false := bne_eq_false_iff_eq.mpr tables
  by_cases mine : foreign = scope
  · have agrees : (scope != foreign) = false := bne_eq_false_iff_eq.mpr mine.symm
    rw [agrees, equal, listed, if_pos mine]
    rfl
  · have differs : (scope != foreign) = true := bne_iff_ne.mpr (Ne.symm mine)
    rw [differs, Bool.true_or, Bool.true_or, if_pos rfl, if_neg mine]

/-- An indented publication is recognised by its version file, which is within the limit and says the version it
was published with. -/
theorem recognizeIndented_own (ready : Ready lib scope .indentedRoot prepared) (read : ReadTree ids prepared all)
    (kept : Kept ids prepared parent after) [DecidableEq B] :
    recognizeIndented lib after prepared.manifest.version all = .ok () := by
  obtain ⟨asset, resource, staged⟩ := ready.indented
  have other : all.get? publicationName = none := read.absent (ready.other_absent .native (by decide))
  have own : all.get? versionName = some (ids.blob (versionBytes lib prepared.manifest.version asset)) :=
    read.found ready.last staged
  have bytes := kept.blobs versionName _ ready.last staged
  have safe : safeVersion prepared.manifest.version = true := ready.sound.version ▸ ready.sound.source.version
  have asset_safe := ready.sound.resource asset resource
  have fits : lib.length (versionBytes lib prepared.manifest.version asset) ≤ commandLimit := by
    rw [versionBytes, lib.length_ofString, JsonText.utf8ByteSize_eq_size, String.toList_ofList]
    exact size_versionText safe asset_safe
  have document : lib.versionDocument (versionBytes lib prepared.manifest.version asset) =
      some (prepared.manifest.version, asset) :=
    lib.versionDocument_ofString _ _ (safeVersion_plain safe) (safeVersion_plain asset_safe)
  unfold recognizeIndented
  simp only [other, own, bytes, command_ok fits, bind, Except.bind, document]
  simp

/-- A tree of one layout has the file that the other layout refuses. -/
theorem recognizeNative_other (ready : Ready lib scope .indentedRoot prepared) (read : ReadTree ids prepared all)
    (foreign : Scope) (version : String) : recognizeNative lib after foreign version all = .error .notAdoptable := by
  obtain ⟨asset, -, staged⟩ := ready.indented
  have there : all.get? versionName = some _ := read.found ready.last staged
  unfold recognizeNative
  rw [there]
  rfl

/-- The other way round, a native tree has the metadata, which the indented layout refuses. -/
theorem recognizeIndented_other [DecidableEq B] (ready : Ready lib scope .native prepared)
    (read : ReadTree ids prepared all) (version : String) :
    recognizeIndented lib after version all = .error .notAdoptable := by
  have there : all.get? publicationName = some _ := read.found ready.last ready.native
  unfold recognizeIndented
  rw [there]
  rfl

variable [DecidableEq B]

/-- With the objects of a publication kept, the recogniser gets to its tree and reads its entries; what is left to
decide is the layout's own check. -/
theorem recognizeTree_kept (ready : Ready lib scope layout prepared) (kept : Kept ids prepared parent after)
    (listed : treeInput ids prepared.staging prepared.names = .ok entries) :
    ∃ all, ReadTree ids prepared all ∧ ∀ foreign version,
      recognizeTree lib after foreign .native (ids.commit (publicationCommit ids prepared parent entries)) version =
        recognizeNative lib after foreign version all ∧
      recognizeTree lib after foreign .indentedRoot (ids.commit (publicationCommit ids prepared parent entries))
        version = recognizeIndented lib after version all := by
  obtain ⟨same, fits, all, parsed, read⟩ := ready.read listed
  have commit := kept.commit entries listed
  have tree : after.trees (publicationCommit ids prepared parent entries).tree = some entries := by
    have stored := kept.tree entries listed
    rw [same] at stored
    change after.trees (ids.tree (mktree entries)) = _
    rw [same, stored]
  refine ⟨all, read, fun foreign version => ⟨?_, ?_⟩⟩
  · unfold recognizeTree
    simp only [commit, Option.bind_some, tree, command_ok fits, bind, Except.bind, parsed]
  · unfold recognizeTree
    simp only [commit, Option.bind_some, tree, command_ok fits, bind, Except.bind, parsed]

/-- A publication is recognised in its own layout. -/
theorem recognizeTree_own (ready : Ready lib scope layout prepared) (kept : Kept ids prepared parent after)
    (listed : treeInput ids prepared.staging prepared.names = .ok entries) :
    recognizeTree lib after scope layout (ids.commit (publicationCommit ids prepared parent entries))
      prepared.manifest.version = .ok () := by
  obtain ⟨all, read, tree⟩ := recognizeTree_kept ready kept listed
  cases layout with
  | native => rw [(tree scope _).1, recognizeNative_own ready read kept, if_pos rfl]
  | indentedRoot => rw [(tree scope _).2, recognizeIndented_own ready read kept]

/-- It is not recognised in the other layout, for whatever scope and version is asked. -/
theorem recognizeTree_other (ready : Ready lib scope layout prepared) (kept : Kept ids prepared parent after)
    (listed : treeInput ids prepared.staging prepared.names = .ok entries) (foreign : Scope) {other : Layout}
    (apart : other ≠ layout) (version : String) :
    recognizeTree lib after foreign other (ids.commit (publicationCommit ids prepared parent entries)) version =
      .error .notAdoptable := by
  obtain ⟨all, read, tree⟩ := recognizeTree_kept ready kept listed
  cases other with
  | native =>
    cases layout with
    | native => exact absurd rfl apart
    | indentedRoot => rw [(tree foreign _).1, recognizeNative_other ready read]
  | indentedRoot =>
    cases layout with
    | native => rw [(tree foreign _).2, recognizeIndented_other ready read]
    | indentedRoot => exact absurd rfl apart

/-- A native publication is not recognised for another scope. -/
theorem recognizeTree_foreign (ready : Ready lib scope .native prepared) (kept : Kept ids prepared parent after)
    (listed : treeInput ids prepared.staging prepared.names = .ok entries) {foreign : Scope}
    (apart : foreign ≠ scope) :
    recognizeTree lib after foreign .native (ids.commit (publicationCommit ids prepared parent entries))
      prepared.manifest.version = .error .notAdoptable := by
  obtain ⟨all, read, tree⟩ := recognizeTree_kept ready kept listed
  rw [(tree foreign _).1, recognizeNative_own ready read kept, if_neg apart]

/-- The newest publication decides: its region first, then its tree. -/
theorem recognize_newest {commit : Commit} {head oid : String} {count : Nat} (sound : Sound scope p)
    (following : Follows after.commits oid count head) (known : after.commits oid = some commit)
    (near : count < adoptDepth) (subject : commit.subject = subjectOf (paragraph p))
    (fits : ∀ log, firstParents after.commits adoptDepth head = some log → logBytes log ≤ commandLimit)
    (foreign : Scope) (layout : Layout) :
    recognize lib after foreign layout head =
      if foreign.region = scope.region then
        (recognizeTree lib after foreign layout oid p.version).map fun _ => (oid, p.version)
      else .error .notAdoptable := by
  have safe : safeVersion p.version = true := sound.version ▸ sound.source.version
  rw [subjectOf_paragraph safe] at subject
  have own : commit.subject = "Sirius Master ".toList ++ (p.scope.region.name.toList ++ ' ' :: p.version.toList) := by
    rw [subject, ← List.append_assoc]
    rfl
  have clean : '\r' ∉ commit.subject := by
    rw [subject]
    exact paragraph_visible safe (by decide)
  have absent : ' ' ∉ p.scope.region.name.toList := by
    cases p.scope.region <;> decide
  obtain ⟨log, walked, found⟩ := newest_follows following known near own clean
  unfold recognize
  simp only [walked, command_ok (fits log walked), bind, Except.bind, found, Lines.splitOnce_append absent,
    String.ofList_toList, Region.fromRecordedName_name, safe, Bool.not_true, Bool.or_false]
  rw [sound.scope]
  by_cases same : foreign.region = scope.region
  · rw [if_pos same, same, bne_self_eq_false, if_neg Bool.false_ne_true]
    cases recognizeTree lib after foreign layout oid p.version with
    | error e => rfl
    | ok u => rfl
  · have differs : (some scope.region != some foreign.region) = true :=
      bne_iff_ne.mpr fun equal => same (Option.some.inj equal).symm
    rw [if_neg same, if_pos differs]

/-- What `prepare` reads and `commit_internal` writes is recognised behind at most 63 commits without such a subject, as
what it is and as nothing else, while the log stays within its limit. -/
theorem publication_recognized {owned : Except Error Unit} {states : Nat → Root B} {first count : Nat} {head : String}
    (ran : (Reads.run states first (prepare lib owned scope layout)).1 = .ok prepared)
    (committed : commitInternal ids prepared parent before = .ok receipt) (changed : receipt.changed = true)
    (kept : Kept ids prepared parent after) (following : Follows after.commits receipt.commit count head)
    (near : count < adoptDepth)
    (fits : ∀ log, firstParents after.commits adoptDepth head = some log → logBytes log ≤ commandLimit) :
    recognize lib after scope layout head = .ok (receipt.commit, prepared.manifest.version) ∧
    (∀ other foreign, other ≠ layout → recognize lib after foreign other head = .error .notAdoptable) ∧
    (∀ other foreign, foreign.region ≠ scope.region →
      recognize lib after foreign other head = .error .notAdoptable) ∧
    (layout = .native → ∀ foreign, foreign ≠ scope →
      recognize lib after foreign layout head = .error .notAdoptable) := by
  have ready : Ready lib scope layout prepared := (ensures_prepare lib owned scope layout).run ran
  obtain ⟨entries, listed, oid⟩ := commitInternal_changed committed changed
  rw [oid] at following ⊢
  have decided (foreign : Scope) (other : Layout) : recognize lib after foreign other head = _ :=
    recognize_newest ready.sound following (kept.commit entries listed) near rfl fits foreign other
  have elsewhere (foreign : Scope) (other : Layout) (apart : foreign.region ≠ scope.region) :
      recognize lib after foreign other head = .error .notAdoptable := by
    rw [decided, if_neg apart]
  refine ⟨?_, fun other foreign apart => ?_, fun other foreign apart => elsewhere foreign other apart, ?_⟩
  · rw [decided, if_pos rfl, recognizeTree_own ready kept listed]
    rfl
  · by_cases same : foreign.region = scope.region
    · rw [decided, if_pos same, recognizeTree_other ready kept listed foreign apart]
      rfl
    · exact elsewhere foreign other same
  · rintro rfl foreign apart
    by_cases same : foreign.region = scope.region
    · rw [decided, if_pos same, recognizeTree_foreign ready kept listed apart]
      rfl
    · exact elsewhere foreign .native same

/-- A commit follows the publication. -/
theorem publication_recognized_followed : ∃ prepared, samplePreparing = .ok prepared ∧
    recognize sampleFormats sampleRepository sampleScope .native followerOid =
      .ok (publicationOid, prepared.manifest.version) ∧
    recognize sampleFormats sampleRepository sampleScope .indentedRoot followerOid = .error .notAdoptable := by
  have shape : samplePreparing.toOption.map (fun prepared => decide (prepared.manifest = sampleTarget ∧
      prepared.names = ["MasterA.json", publicationName] ∧
      prepared.staging "MasterA.json" = some (.inl (.table "[]" emptyTableSha)) ∧
      prepared.staging publicationName = some (.inr (metadata sampleTarget)))) = some true := by decide +kernel
  cases ran : samplePreparing with
  | error e =>
    rw [ran] at shape
    cases shape
  | ok prepared =>
    rw [ran] at shape
    obtain ⟨manifest, names, table, closed⟩ := of_decide_eq_true (Option.some.inj shape)
    have listed : treeInput sampleIds prepared.staging prepared.names = .ok sampleTree := by
      rw [names]
      simp only [treeInput, table, closed]
      decide +kernel
    have publication : publicationCommit sampleIds prepared none sampleTree = commitTree sampleTarget treeOid none := by
      rw [publicationCommit, manifest]
      rfl
    have committed : commitInternal sampleIds prepared none sampleRepository =
        .ok ⟨publicationOid, prepared.manifest.contentSha256, true⟩ := by
      have grown : isOid (sampleIds.tree (mktree sampleTree)).toList = true := by decide +kernel
      have made : isOid (sampleIds.commit (publicationCommit sampleIds prepared none sampleTree)).toList = true := by
        rw [publication]
        decide +kernel
      unfold commitInternal
      rw [listed]
      simp only [bind, Except.bind, grown, Bool.not_true, Bool.false_eq_true, if_false, Option.map_none,
        commitInternal.create, made]
      rfl
    have kept : Kept sampleIds prepared none sampleRepository := by
      refine ⟨fun name bytes member there => ?_, fun entries same => ?_, fun entries same => ?_⟩
      · rw [names] at member
        rcases List.mem_cons.mp member with rfl | rest
        · cases table.symm.trans there
          rfl
        · rw [List.mem_singleton.mp rest] at there
          cases closed.symm.trans there
          rfl
      · cases listed.symm.trans same
        decide +kernel
      · cases listed.symm.trans same
        rw [publication]
        rfl
    have following : Follows sampleRepository.commits publicationOid 1 followerOid :=
      .later .here rfl rfl follower_foreign
    have short : ∀ log, firstParents sampleRepository.commits adoptDepth followerOid = some log →
        logBytes log ≤ commandLimit := by
      have bytes : (firstParents sampleRepository.commits adoptDepth followerOid).map logBytes = some 217 := by
        decide +kernel
      intro log walked
      rw [walked] at bytes
      rw [Option.some.inj bytes]
      decide
    have results := publication_recognized ran committed rfl kept following (by decide) short
    exact ⟨prepared, rfl, results.1, results.2.1 .indentedRoot sampleScope (by decide)⟩

end Publication

end SiriusProxy.Master.Git
