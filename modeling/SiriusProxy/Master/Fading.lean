import SiriusProxy.Master.Prepare
import SiriusProxy.Master.History

namespace SiriusProxy.Master
open Reads (eval run Fades)

variable {B : Type} {lib : Serde B} {d : Place B}

/-- The errors that `crossed_boundary` takes for a missing directory. -/
def Lost (e : MasterError) : Prop := e.missing = true

/-- A read looks for its file twice, at its kind and at its content. If the snapshot goes before the first look or
between the two, the file is missing, which is how a loss shows. -/
theorem fades_regular (name : String) (limit : Nat) : Fades Lost d (regular lib (Place.at name) limit) := by
  refine Fades.look ?_ ⟨.io true, rfl, rfl⟩
  split
  · exact Fades.throw _
  · refine Fades.look ?_ ⟨.io true, rfl, rfl⟩
    split
    · exact Fades.throw _
    · split
      · exact Fades.throw _
      · exact Fades.pure _
    · exact Fades.throw _
  · exact Fades.throw _

/-- The look at the directory itself finds it or finds nothing. -/
theorem fades_snapshotDirectory (snapshot : String) : Fades Lost d (snapshotDirectory snapshot) := by
  unfold snapshotDirectory
  split
  · exact Fades.throw _
  · refine Fades.look ?_ ⟨.notFound, rfl, rfl⟩
    split
    · exact Fades.throw _
    · exact Fades.pure _
    · exact Fades.throw _

theorem fades_sourceWithProvenance (snapshot : String) : Fades Lost d (sourceWithProvenance lib snapshot) := by
  refine (fades_regular _ _).bind fun bytes _ => (Fades.done _).bind fun source _ => (fades_regular _ _).bind fun bytes _ => ?_
  split
  · exact Fades.throw _
  · exact Fades.done _

/-- The loop over the tables, by induction on them: each table is one read, and the loop stops at the first that
is lost. -/
theorem fades_indexTables (entries : List Entry) (total : Nat) (files : List File) :
    Fades Lost d (indexTables lib entries total files) := by
  induction entries generalizing total files with
  | nil => exact Fades.pure _
  | cons entry rest ih =>
    refine (fades_regular _ _).bind fun bytes _ => ?_
    simp only
    split
    · exact Fades.throw _
    · split
      · exact Fades.throw _
      · exact ih _ _

theorem fades_inventoryChecked (source : Manifest) (value : Inventory) : Fades Lost d (inventoryChecked source value) :=
  (Fades.done _).bind fun _ _ => Fades.pure _

/-- A directory that goes before its index is read is no directory without an index: the tables are
gone as well. -/
theorem fades_inventory {source : Manifest} (nonempty : source.files ≠ []) : Fades Lost d (inventory lib source) := by
  unfold inventory
  refine Fades.look ?_ ?_
  · split
    · refine Fades.bind ?_ fun value _ => fades_inventoryChecked source value
      refine (fades_regular _ _).bind fun bytes _ => ?_
      split
      · exact Fades.throw _
      · exact Fades.pure _
    · refine Fades.bind ?_ fun value _ => fades_inventoryChecked source value
      exact (fades_indexTables _ _ _).bind fun files _ => Fades.pure _
  · cases tables : source.files with
    | nil => exact absurd tables nonempty
    | cons entry rest =>
      refine ⟨.io true, ?_, rfl⟩
      simp only [Place.at_none]
      refine Reads.eval_bind_error ?_
      unfold inventoryComputed
      rw [tables]
      rfl

/-- A source that is read is valid, as the parser takes no other. -/
theorem sourceWithProvenance_valid {snapshot : String} {p : Provenance} {place : Option (Place B)}
    (read : eval place (sourceWithProvenance lib snapshot) = .ok p) : p.source.Valid := by
  unfold sourceWithProvenance at read
  obtain ⟨bytes, -, read⟩ := Reads.eval_bind_eq_ok read
  obtain ⟨source, parsed, read⟩ := Reads.eval_bind_eq_ok read
  obtain ⟨bytes, -, read⟩ := Reads.eval_bind_eq_ok read
  have same : p.source = source := by
    split at read
    · cases read
    · simp only [Reads.eval_done, provenance] at read
      split at read
      · cases read
      · split at read
        · cases read
          rfl
        · cases read
  rw [same]
  exact (Manifest.parse_ok.mp parsed).2.2

theorem fades_manifestOf (snapshot : String) (scope : Scope) : Fades Lost d (manifestOf lib snapshot scope) := by
  refine (fades_snapshotDirectory snapshot).bind fun _ _ => (fades_sourceWithProvenance snapshot).bind fun p read => ?_
  split
  · exact Fades.throw _
  · have valid := (sourceWithProvenance_valid read).perm (List.perm_insertionSort (fun a b => a.name ≤ b.name) _)
    exact (fades_inventory valid.nonempty).bind fun i _ => Fades.pure _

theorem fades_manifestIn (snapshot : String) (scope : Scope) : Fades Lost d (manifestIn lib snapshot scope) := by
  unfold manifestIn
  split
  · exact Fades.throw _
  · exact fades_manifestOf snapshot scope

/-- What is made of a read record depends on its text alone, and a record that is missing is none; whether its
snapshot is still there is asked afterwards. -/
theorem fades_publicationRead (snapshot : String) (visited : List String) (read : Except MasterError B) :
    Fades Lost d (publicationRead lib snapshot visited read) := by
  unfold publicationRead
  split
  · split
    · exact Fades.throw _
    · split
      · exact Fades.pure _
      · exact Fades.throw _
  · exact Fades.pure _
  · exact Fades.throw _

/-- A record that is not found is no record only if the directory is still there. -/
theorem fades_publication {β : Type} {snapshot : String} {visited : List String} {next : Option Publication → Look B β}
    (rest : ∀ record, Fades Lost d (next record)) (absent : ∃ e, eval none (next none) = .error e ∧ Lost e) :
    Fades Lost d (publication lib snapshot visited >>= next) := by
  have after : ∀ read, Fades Lost d (publicationRead lib snapshot visited read >>= next) :=
    fun read => (fades_publicationRead snapshot visited read).bind fun record _ => rest record
  -- Both looks of `regular` may find nothing, and the caught error leads to the second check.
  refine Fades.look ?_ absent
  cases Place.at "publication.json" (some d) with
  | none => exact after (.error (.io true))
  | some node =>
    cases node with
    | directory => exact after (.error .format)
    | other => exact after (.error .format)
    | file bytes =>
      refine Fades.look ?_ absent
      cases Place.at "publication.json" (some d) with
      | none => exact after (.error (.io true))
      | some node =>
        cases node with
        | directory => exact after (.error (.io false))
        | other => exact after (.error (.io false))
        | file bytes =>
          by_cases long : 4096 < lib.length bytes
          · simp only [if_pos long]
            exact after (.error .limit)
          · simp only [if_neg long]
            exact after (.ok bytes)

/-- A snapshot that goes while it is read is read to the end, or reported missing. -/
theorem fades_chainStep (scope : Scope) (snapshot : String) (visited : List String) :
    Fades Lost d (chainStep lib scope snapshot visited) := by
  refine (fades_snapshotDirectory snapshot).bind fun _ _ => (fades_manifestIn snapshot scope).bind fun document _ => ?_
  refine fades_publication (fun record => ?_) ⟨.notFound, ?_, rfl⟩
  · cases record with
    | some record => exact Fades.pure _
    | none => exact (fades_snapshotDirectory snapshot).bind fun _ _ => Fades.pure _
  · refine Reads.eval_bind_error ?_
    unfold snapshotDirectory
    split <;> rfl

end SiriusProxy.Master
