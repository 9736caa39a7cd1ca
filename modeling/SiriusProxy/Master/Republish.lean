import SiriusProxy.Lib.Jsonb
import SiriusProxy.Master.Events

namespace SiriusProxy.Master

variable {B J F : Type}

/-- One `store_snapshot`, or what a transaction leaves besides. -/
inductive Storing (lib : Serde B) (engine : Engine B J) where
  | store (keep : Nat) (now : Instant) {scope : Scope} (verified : Verified lib engine scope)
      (publication : Option (Option Instant))
  | other (migrations : Scope → Option Migration) (consumed : Nat)

/-- The engine of `serde_json::Value` and JSONB over one with the rest. -/
def jsonEngine (doubles : Jsonb.Doubles F) (base : Engine B (Jsonb.Value F)) : Engine B (Jsonb.Value F) where
  __ := base
  same := Jsonb.Value.same doubles
  jsonb := Jsonb.Value.stored doubles

/-- Tables in the order of the collation, with numbers that come back from JSONB. -/
def Returns (doubles : Jsonb.Doubles F) (base : Engine B (Jsonb.Value F)) (snapshot : Snapshot B (Jsonb.Value F)) : Prop :=
  (snapshot.manifest.files.map File.name).Pairwise (fun a b => base.collate a b = true) ∧
    ∀ table ∈ snapshot.tables, table.value.Stable doubles

theorem inserted_names {engine : Engine B J} {tables : List (Table B J)} {documents : List (DocumentRow B J)}
    (inserted : List.Forall₂ (Inserted engine) tables documents) :
    documents.map DocumentRow.name = tables.map fun table => table.file.name := by
  induction inserted with
  | nil => rfl
  | cons first rest ih => rw [List.map_cons, List.map_cons, first.name, ih]

theorem orderRows_sorted (engine : Engine B J) (documents : List (DocumentRow B J)) :
    ((orderRows engine documents).map DocumentRow.name).Pairwise (fun a b => engine.collate a b = true) := by
  have total : Std.Total fun a b : DocumentRow B J => engine.collate a.name b.name = true :=
    ⟨fun a b => engine.collate_total a.name b.name⟩
  have trans : IsTrans (DocumentRow B J) fun a b => engine.collate a.name b.name = true :=
    ⟨fun a b c => engine.collate_trans a.name b.name c.name⟩
  rw [List.pairwise_map]
  exact List.pairwise_insertionSort _ documents

theorem orderRows_same {engine : Engine B J} {documents : List (DocumentRow B J)}
    (ordered : (documents.map DocumentRow.name).Pairwise (fun a b => engine.collate a b = true)) :
    orderRows engine documents = documents := by
  rw [List.pairwise_map] at ordered
  exact ordered.insertionSort_eq

variable [DecidableEq B] {lib : Serde B} {engine : Engine B J}

def storing (db : Database B J) : Storing lib engine → Option (Database B J)
  | .store keep now verified publication =>
    (storeSnapshot lib engine keep now verified.snapshot publication db).toOption.map Prod.snd
  | .other migrations consumed => some { db with migrations, sequence := db.sequence + consumed }

theorem storing_store {keep : Nat} {now : Instant} {scope : Scope} {verified : Verified lib engine scope}
    {publication : Option (Option Instant)} {db after : Database B J} :
    storing db (.store keep now verified publication) = some after ↔
      ∃ receipt, storeSnapshot lib engine keep now verified.snapshot publication db = .ok (receipt, after) := by
  simp only [storing]
  cases stored : storeSnapshot lib engine keep now verified.snapshot publication db with
  | error e => simp [Except.toOption]
  | ok pair =>
    obtain ⟨receipt, last⟩ := pair
    simp [Except.toOption]

/-- A transaction is a run of its `store_snapshot` calls. -/
theorem reach_storing {transaction : Transaction lib engine} {db after : Database B J}
    (done : commit db transaction = some after) :
    Run.Reach storing (fun _ (_ : Storing lib engine) => True) db after := by
  refine commit_invariant (P := Run.Reach storing (fun _ (_ : Storing lib engine) => True) db)
    (fun now scope verified publication middle receipt last reach stored => ?_)
    (fun middle consumed reach => ?_) (fun middle migrations reach => ?_) done .start
  · exact reach.next (l := .store _ now verified publication) trivial (storing_store.mpr ⟨receipt, stored⟩)
  · exact reach.next (l := .other middle.migrations consumed) trivial rfl
  · exact reach.next (l := .other migrations 0) trivial rfl

theorem storing_whole {db after : Database B J} {label : Storing lib engine} (whole : db.Whole lib)
    (done : storing db label = some after) : after.Whole lib := by
  cases label with
  | store keep now verified publication =>
    obtain ⟨receipt, stored⟩ := storing_store.mp done
    exact whole.store verified.intact stored
  | other migrations consumed =>
    cases done
    exact ⟨whole.distinct, whole.serves⟩

/-- A content that is still there has its documents. -/
theorem storing_documents {db after : Database B J} {label : Storing lib engine} {scope : Scope} {row new : SnapshotRow B J}
    (whole : db.Whole lib) (done : storing db label = some after) (member : row ∈ db.snapshots scope)
    (there : new ∈ after.snapshots scope) (same : new.contentHash = row.contentHash) : new.documents = row.documents := by
  have distinct := whole.distinct scope
  have unique : ∀ old ∈ db.snapshots scope, old.contentHash = row.contentHash → old = row :=
    fun old inside equal => List.inj_on_of_nodup_map distinct inside member equal
  cases label with
  | store keep now verified publication =>
    obtain ⟨receipt, stored⟩ := storing_store.mp done
    by_cases own : scope = verified.snapshot.manifest.scope
    · subst own
      cases (storeSnapshot_rows distinct stored).2 new there with
      | same old inside hash manifest documents => rw [documents, unique old inside (hash.symm.trans same)]
      | renewed old saved inside checked stored hash manifest documents version =>
        rw [documents, unique old inside (stored.trans (hash.symm.trans same))]
      | new missing hash manifest documents => exact absurd (same.symm.trans hash) (Rows.find_none missing member)
    · rw [(storeSnapshot_other stored own).1] at there
      rw [unique new there same]
  | other migrations consumed =>
    cases done
    rw [unique new there same]

/-- A step after which a content is still there. -/
def Remains (lib : Serde B) (engine : Engine B J) (scope : Scope) (hash : String) (db : Database B J)
    (label : Storing lib engine) : Prop :=
  ∀ after, storing db label = some after → hash ∈ after.retained scope

theorem reach_documents {db after : Database B J} {scope : Scope} {row : SnapshotRow B J} (whole : db.Whole lib)
    (member : row ∈ db.snapshots scope) (reach : Run.Reach storing (Remains lib engine scope row.contentHash) db after) :
    after.Whole lib ∧ ∃ new ∈ after.snapshots scope, new.contentHash = row.contentHash ∧ new.documents = row.documents := by
  induction reach with
  | start => exact ⟨whole, row, member, rfl, rfl⟩
  | next _ remains done ih =>
    obtain ⟨good, middle, inside, same, documents⟩ := ih
    obtain ⟨new, there, equal⟩ := mem_retained.mp (remains _ done)
    have kept := storing_documents good done inside there (equal.trans same.symm)
    exact ⟨storing_whole good done, new, there, equal, kept.trans documents⟩

/-- The comparison of a table with the row that was inserted for it comes down to its numbers. -/
theorem sameTable_inserted {doubles : Jsonb.Doubles F} {base : Engine B (Jsonb.Value F)} {table : Table B (Jsonb.Value F)}
    {document : DocumentRow B (Jsonb.Value F)} (inserted : Inserted (jsonEngine doubles base) table document) :
    sameTable (jsonEngine doubles base) document table = true ↔ table.value.Stable doubles := by
  have numbers := Jsonb.Value.same_stored table.value document.document inserted.document
  simp only [sameTable, inserted.name, inserted.sha256, inserted.bytes, beq_self_eq_true, decide_true, Bool.true_and]
  exact numbers

theorem sameTables_inserted {doubles : Jsonb.Doubles F} {base : Engine B (Jsonb.Value F)}
    {tables : List (Table B (Jsonb.Value F))} {documents : List (DocumentRow B (Jsonb.Value F))}
    (inserted : List.Forall₂ (Inserted (jsonEngine doubles base)) tables documents) :
    List.Forall₂ (fun document table => sameTable (jsonEngine doubles base) document table = true) documents tables ↔
      ∀ table ∈ tables, table.value.Stable doubles := by
  induction inserted with
  | nil => simp
  | cons first rest ih => rw [List.forall₂_cons, sameTable_inserted first, ih, List.forall_mem_cons]

theorem sameTables_names {tables : List (Table B J)} {documents : List (DocumentRow B J)}
    (equal : List.Forall₂ (fun document table => sameTable engine document table = true) documents tables) :
    documents.map DocumentRow.name = tables.map fun table => table.file.name := by
  induction equal with
  | nil => rfl
  | cons first rest ih =>
    simp only [sameTable, Bool.and_eq_true, beq_iff_eq] at first
    rw [List.map_cons, List.map_cons, first.1.1.1, ih]

theorem writeRows_found {snapshot : Snapshot B J} {rows : List (SnapshotRow B J)} {row : SnapshotRow B J}
    (found : Rows.find SnapshotRow.contentHash snapshot.manifest.contentSha256 rows = some row) :
    (∃ after, writeRows lib engine snapshot rows = .ok after) ↔ ∃ saved, checkSaved lib engine snapshot row = .ok saved := by
  constructor
  · rintro ⟨after, done⟩
    rcases writeRows_ok done with ⟨other, saved, same, checked, -⟩ | ⟨missing, -⟩
    · rw [found] at same
      exact ⟨saved, Option.some.inj same ▸ checked⟩
    · rw [found] at missing
      cases missing
  · rintro ⟨saved, checked⟩
    simp only [writeRows, found, checked]
    split
    · exact ⟨_, rfl⟩
    · exact ⟨_, rfl⟩

/-- A stored snapshot passes the comparison with its own rows exactly if it returns. -/
theorem checkSaved_inserted {doubles : Jsonb.Doubles F} {base : Engine B (Jsonb.Value F)} {scope : Scope}
    {snapshot : Snapshot B (Jsonb.Value F)} {row : SnapshotRow B (Jsonb.Value F)} {p : PublishedManifest}
    (intact : snapshot.Intact lib (jsonEngine doubles base) scope) (serves : row.Serves lib scope p)
    (hash : row.contentHash = snapshot.manifest.contentSha256)
    (inserted : List.Forall₂ (Inserted (jsonEngine doubles base)) snapshot.tables row.documents) :
    (∃ saved, checkSaved lib (jsonEngine doubles base) snapshot row = .ok saved) ↔ Returns doubles base snapshot := by
  have names := inserted_names inserted
  have listed : snapshot.tables.map (fun table => table.file.name) = snapshot.manifest.files.map File.name := by
    rw [← intact.files, List.map_map]
    rfl
  constructor
  · rintro ⟨saved, checked⟩
    obtain ⟨-, -, -, equal⟩ := checkSaved_ok.mp checked
    have ordered := orderRows_sorted (jsonEngine doubles base) row.documents
    rw [sameTables_names equal] at ordered
    rw [orderRows_same (names ▸ ordered)] at equal
    exact ⟨listed ▸ ordered, (sameTables_inserted inserted).mp equal⟩
  · rintro ⟨ordered, stable⟩
    refine ⟨p, checkSaved_ok.mpr ⟨serves.read, intact.scope ▸ serves.passed, serves.content.trans hash, ?_⟩⟩
    rw [orderRows_same (by rw [names, listed]; exact ordered)]
    exact (sameTables_inserted inserted).mpr stable

theorem Snapshot.Intact.store_again {doubles : Jsonb.Doubles F} {base : Engine B (Jsonb.Value F)} {scope : Scope}
    {before stored later : Database B (Jsonb.Value F)} {snapshot : Snapshot B (Jsonb.Value F)} {keep : Nat} {now : Instant}
    {publication : Option (Option Instant)} {receipt : StoreReceipt}
    (intact : snapshot.Intact lib (jsonEngine doubles base) scope) (whole : before.Whole lib)
    (absent : snapshot.manifest.contentSha256 ∉ before.retained scope)
    (first : storeSnapshot lib (jsonEngine doubles base) keep now snapshot publication before = .ok (receipt, stored))
    (run : Run.Reach storing (Remains lib (jsonEngine doubles base) scope snapshot.manifest.contentSha256) stored later)
    (limit : Nat) (moment : Instant) (event : Option (Option Instant)) :
    (∃ receipt after, storeSnapshot lib (jsonEngine doubles base) limit moment snapshot event later =
      .ok (receipt, after)) ↔ Returns doubles base snapshot := by
  obtain rfl := intact.scope
  have absent : ∀ old ∈ before.snapshots snapshot.manifest.scope,
      old.contentHash ≠ snapshot.manifest.contentSha256 :=
    fun old inside same => absent (mem_retained.mpr ⟨old, inside, same⟩)
  obtain ⟨row, member, hash⟩ := storeSnapshot_has first
  have inserted : List.Forall₂ (Inserted (jsonEngine doubles base)) snapshot.tables row.documents := by
    cases (storeSnapshot_rows (whole.distinct _) first).2 row member with
    | same old inside same manifest documents => exact absurd (same.symm.trans hash) (absent old inside)
    | renewed old saved inside checked same => exact absurd same (absent old inside)
    | new missing same manifest documents =>
      obtain ⟨new, all, each, -⟩ := insertDocuments_ok documents List.nodup_nil
      rw [all]
      exact each
  rw [← hash] at run
  obtain ⟨last, new, there, same, documents⟩ := reach_documents (whole.store intact first) member run
  obtain ⟨p, serves⟩ := last.serves _ new there
  have found := Rows.find_member (last.distinct _) there
  rw [same, hash] at found
  rw [← documents] at inserted
  rw [← checkSaved_inserted intact serves (same.trans hash) inserted, ← writeRows_found found]
  constructor
  · rintro ⟨receipt, after, done⟩
    obtain ⟨rows, written, -⟩ := storeSnapshot_ok done
    exact ⟨rows, written⟩
  · rintro ⟨rows, written⟩
    exact storeSnapshot_runs limit moment event intact written

/-- After its first `store_snapshot` and as long as its content is there, a snapshot is stored again
exactly if its tables are in the order of the collation and its numbers come back from JSONB. -/
theorem republish_returns (lib : Serde B) (doubles : Jsonb.Doubles F) (base : Engine B (Jsonb.Value F)) {scope : Scope}
    {before stored later : Database B (Jsonb.Value F)} {verified : Verified lib (jsonEngine doubles base) scope} {keep : Nat}
    {now : Instant} {publication : Option (Option Instant)} {receipt : StoreReceipt}
    (reach : Run.Reach storing (fun _ (_ : Storing lib (jsonEngine doubles base)) => True) {} before)
    (absent : verified.snapshot.manifest.contentSha256 ∉ before.retained scope)
    (first : storeSnapshot lib (jsonEngine doubles base) keep now verified.snapshot publication before = .ok (receipt, stored))
    (run : Run.Reach storing (Remains lib (jsonEngine doubles base) scope verified.snapshot.manifest.contentSha256) stored later)
    (limit : Nat) (moment : Instant) (event : Option (Option Instant)) :
    (∃ receipt after, storeSnapshot lib (jsonEngine doubles base) limit moment verified.snapshot event later =
      .ok (receipt, after)) ↔ Returns doubles base verified.snapshot := by
  have whole : before.Whole lib := reach.invariant
    ⟨fun _ => List.nodup_nil, fun _ _ member => absurd member List.not_mem_nil⟩ fun _ _ _ whole _ done => storing_whole whole done
  exact verified.intact.store_again whole absent first run limit moment event

/-- Doubles as the shortest decimals that name them. -/
def decimalDoubles : Jsonb.Doubles Jsonb.Spelling where
  written s := s
  read m := ⟨m.negative, m.digits, m.scale, 0⟩
  same a b := a.numeric.negative == b.numeric.negative &&
    a.numeric.digits * 10 ^ b.numeric.scale == b.numeric.digits * 10 ^ a.numeric.scale

/-- Two tables of one number each: 10^18, which is a double, and one half. -/
def numberValue : Doc → Option (Jsonb.Value Jsonb.Spelling)
  | .table "[1e18]" _ => some (.array [.number (.float ⟨false, 1, 0, 18⟩)])
  | .table "[0.5]" _ => some (.array [.number (.float ⟨false, 5, 1, 0⟩)])
  | _ => none

def numberEngine : Engine Doc (Jsonb.Value Jsonb.Spelling) where
  value := numberValue
  same := Jsonb.Value.same decimalDoubles
  ofPlan := textEngine.ofPlan
  jsonb := Jsonb.Value.stored decimalDoubles
  collate := textEngine.collate
  collate_total := textEngine.collate_total
  collate_trans := textEngine.collate_trans

/-- A snapshot directory with one table. -/
def numberFiles (table : Doc) : String → Option (Node Doc) :=
  (stage servedSerde (write (fun _ => none) "MasterA.json" table)
    ⟨1, "1.0", [⟨"MasterA.json", servedSerde.length table, servedSerde.sha256 table⟩]⟩ (.manifest sampleManifest)
    (sampleReceipt "master-a")).files

/-- The tables that the verification of such a directory reads. -/
def numberTables (table : Doc) : Option (List Doc) :=
  (Reads.eval (single "master-a" (numberFiles table))
    (verifiedSnapshot servedSerde (jsonEngine decimalDoubles numberEngine) sampleScope (some "master-a"))).toOption.map
    fun snapshot => snapshot.tables.map Table.bytes

theorem number_first {table : Doc} {value : Jsonb.Value Jsonb.Spelling} (read : numberTables table = some [table])
    (parsed : numberValue table = some value) (kept : (value.stored decimalDoubles).isSome = true) :
    ∃ verified : Verified servedSerde (jsonEngine decimalDoubles numberEngine) sampleScope,
      verified.snapshot.tables.map Table.value = [value] ∧ ∃ receipt stored,
        storeSnapshot servedSerde (jsonEngine decimalDoubles numberEngine) 20 1 verified.snapshot none {} = .ok (receipt, stored) := by
  obtain ⟨snapshot, returned, bytes⟩ := Option.map_eq_some_iff.mp read
  have accepted : Reads.eval (single "master-a" (numberFiles table))
      (verifiedSnapshot servedSerde (jsonEngine decimalDoubles numberEngine) sampleScope (some "master-a")) = .ok snapshot := by
    cases result : Reads.eval (single "master-a" (numberFiles table))
        (verifiedSnapshot servedSerde (jsonEngine decimalDoubles numberEngine) sampleScope (some "master-a")) with
    | error e =>
      rw [result] at returned
      cases returned
    | ok other =>
      rw [result] at returned
      cases returned
      rfl
  let verified : Verified servedSerde (jsonEngine decimalDoubles numberEngine) sampleScope :=
    ⟨snapshot, some "master-a", fun _ => single "master-a" (numberFiles table), by
      rw [Reads.run_still _ fun _ _ => rfl]
      exact accepted⟩
  have intact := verified.intact
  have values : ∀ entry ∈ verified.snapshot.tables, entry.value = value := by
    intro entry member
    have own : entry.bytes = table := by
      have inside := List.mem_map_of_mem (f := Table.bytes) member
      rw [show verified.snapshot.tables.map Table.bytes = [table] from bytes] at inside
      exact List.mem_singleton.mp inside
    have known := (intact.tables entry member).value
    rw [own] at known
    exact Option.some.inj (known.symm.trans parsed)
  obtain ⟨rows, written⟩ := writeRows_new intact (PublishedManifest.valid_of_validate intact.passed).distinct
    (show Rows.find _ _ (({} : Database Doc (Jsonb.Value Jsonb.Spelling)).snapshots verified.snapshot.manifest.scope) = none from rfl)
    fun entry member => by rw [values entry member]; exact kept
  refine ⟨verified, ?_, storeSnapshot_runs 20 1 none intact written⟩
  have one : verified.snapshot.tables.length = 1 := by
    have count := congrArg List.length bytes
    rw [List.length_map] at count
    exact count
  obtain ⟨entry, alone⟩ := List.length_eq_one_iff.mp one
  rw [alone, List.map_singleton, values entry (alone ▸ List.mem_singleton_self entry)]

/-- The table `[1e18]` is not stored a second time. -/
theorem republish_refused : ∃ (verified : Verified servedSerde (jsonEngine decimalDoubles numberEngine) sampleScope) (receipt : _)
    (stored : _), storeSnapshot servedSerde (jsonEngine decimalDoubles numberEngine) 20 1 verified.snapshot none {} = .ok (receipt, stored) ∧
    ¬ ∃ receipt after, storeSnapshot servedSerde (jsonEngine decimalDoubles numberEngine) 20 2 verified.snapshot none stored =
      .ok (receipt, after) := by
  have read : numberTables (.table "[1e18]" "422ad723614ed18c97936d8764173cffbf3489c370348fd464698af776728e90") =
      some [.table "[1e18]" "422ad723614ed18c97936d8764173cffbf3489c370348fd464698af776728e90"] := by decide +kernel
  obtain ⟨verified, values, receipt, stored, done⟩ := number_first read rfl rfl
  refine ⟨verified, receipt, stored, done, ?_⟩
  have empty : ({} : Database Doc (Jsonb.Value Jsonb.Spelling)).Whole servedSerde :=
    ⟨fun _ => List.nodup_nil, fun _ _ member => absurd member List.not_mem_nil⟩
  rw [verified.intact.store_again empty (Finset.notMem_empty _) done .start]
  rintro ⟨-, stable⟩
  obtain ⟨entry, member, same⟩ := List.mem_map.mp (values.symm ▸ List.mem_singleton_self _)
  have number := stable entry member
  rw [same] at number
  exact absurd number.1.1 (by decide)

theorem republish_returns_half : ∃ (verified : Verified servedSerde (jsonEngine decimalDoubles numberEngine) sampleScope) (receipt : _)
    (stored : _), storeSnapshot servedSerde (jsonEngine decimalDoubles numberEngine) 20 1 verified.snapshot none {} = .ok (receipt, stored) ∧
    ∃ receipt after, storeSnapshot servedSerde (jsonEngine decimalDoubles numberEngine) 20 2 verified.snapshot none stored =
      .ok (receipt, after) := by
  have read : numberTables (.table "[0.5]" "04065541cad7c748322a0786efb913ff311c5a0e2fc3e7644f4af209b070c39c") =
      some [.table "[0.5]" "04065541cad7c748322a0786efb913ff311c5a0e2fc3e7644f4af209b070c39c"] := by decide +kernel
  obtain ⟨verified, values, receipt, stored, done⟩ := number_first read rfl rfl
  refine ⟨verified, receipt, stored, done, ?_⟩
  rw [republish_returns servedSerde decimalDoubles numberEngine .start (Finset.notMem_empty _) done .start]
  constructor
  · have count := congrArg List.length values
    rw [List.length_map, ← List.length_map (f := Table.file), verified.intact.files, ← List.length_map (f := File.name)] at count
    obtain ⟨name, alone⟩ := List.length_eq_one_iff.mp count
    rw [alone]
    exact List.pairwise_singleton _ _
  · intro entry member
    have same := List.mem_map_of_mem (f := Table.value) member
    rw [values, List.mem_singleton] at same
    rw [same]
    exact ⟨⟨Or.inl (by decide), by decide⟩, trivial⟩

end SiriusProxy.Master
