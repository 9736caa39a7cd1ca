import SiriusProxy.Master.Store

namespace SiriusProxy.Master
open Reads (eval)

variable {B : Type} (lib : Serde B)

/-- A directory of one region, completely written, with its publication record. -/
def Recorded (region : Region) (files : String → Option (Node B)) (snapshot : String) (previous : Option String) : Prop :=
  (∃ receipt source index, receipt.snapshot = snapshot ∧ receipt.region = region ∧
    Complete lib files receipt source index) ∧
  ∃ publishedAt, files "publication.json" = some (.file (lib.ofPublication ⟨1, snapshot, previous, publishedAt⟩))

def Member (region : Region) (root : Root B) (snapshot : String) (previous : Option String) : Prop :=
  ∃ files, root.snapshots snapshot = some (.directory files) ∧ Recorded lib region files snapshot previous

/-- A snapshot that readers accept, from before publications were recorded. -/
def Legacy (region : Region) (root : Root B) (snapshot : String) : Prop :=
  ∃ files p i, root.snapshots snapshot = some (.directory files) ∧ files "publication.json" = none ∧
    eval (some (.directory files)) (committed lib snapshot) = .ok p ∧ p.region = region ∧
    eval (some (.directory files)) (inventory lib p.source.sorted) = .ok i

/-- What `CURRENT` has named: recorded snapshots that are there, then those removed, then at most one
snapshot without a record. -/
structure Shape (region : Region) (root : Root B) (named live removed legacy : List String) : Prop where
  split : named = live ++ removed ++ legacy
  pointer : root.current = named.head?.map fun snapshot => .file (lib.ofString snapshot)
  names : ∀ s ∈ named, isSnapshotName s = true
  distinct : named.Nodup
  linked : ∀ i s, live[i]? = some s → Member lib region root s named[i + 1]?
  gone : ∀ s ∈ removed, root.snapshots s = none
  ending : legacy = [] ∨ ∃ s, legacy = [s] ∧ Legacy lib region root s
  boundary : (root.retention = none ∧ removed = []) ∨
    ∃ b ∈ live, root.retention = some (.file (lib.ofRetention ⟨1, b⟩))

variable {lib} {region : Region} {root : Root B} {named live removed legacy : List String} {snapshot : String}
  {previous : Option String} {files : String → Option (Node B)}

theorem Complete.write_publication {receipt : ImportReceipt} {source : Manifest} {index : Inventory}
    (complete : Complete lib files receipt source index) (bytes : B) :
    Complete lib (write files "publication.json" bytes) receipt source index := by
  obtain ⟨text, there, parsed⟩ := complete.manifest
  refine { complete with
    manifest := ⟨text, (write_other _ _ (by decide)).trans there, parsed⟩
    recorded := (write_other _ _ (by decide)).trans complete.recorded
    indexed := (write_other _ _ (by decide)).trans complete.indexed
    tables := fun f member => ?_ }
  have reserved := complete.valid.reserved complete.source_valid.entries member
  simp only [List.mem_cons, List.not_mem_nil, or_false, not_or] at reserved
  exact Holds.write (complete.tables f member) bytes reserved.2.2.2

theorem recorded_prepared (prepared : PreparedImport lib) (previous : Option String) (publishedAt : Instant) :
    Recorded lib prepared.draft.receipt.region (recorded prepared previous publishedAt) prepared.snapshot previous :=
  ⟨⟨_, _, _, rfl, rfl, prepared.complete.write_publication _⟩, publishedAt, write_self ..⟩

theorem Member.eval_committed (there : Member lib region root snapshot previous) :
    ∃ p, eval root ((committed lib snapshot).zoom fun root => root.snapshots snapshot) = .ok p ∧ p.region = region := by
  obtain ⟨files, found, ⟨receipt, source, index, rfl, rfl, complete⟩, -⟩ := there
  refine ⟨⟨source, receipt.resourceVersion, receipt.region⟩, ?_, rfl⟩
  rw [Reads.eval_zoom, found]
  exact complete.eval_committed

theorem Legacy.eval_committed (there : Legacy lib region root snapshot) :
    ∃ p, eval root ((committed lib snapshot).zoom fun root => root.snapshots snapshot) = .ok p ∧ p.region = region := by
  obtain ⟨files, p, i, found, -, accepted, same, -⟩ := there
  refine ⟨p, ?_, same⟩
  rw [Reads.eval_zoom, found]
  exact accepted

theorem safe_of_named {s : String} (named : isSnapshotName s = true) : safeComponent s = true := by
  simp only [isSnapshotName, Bool.and_eq_true] at named
  exact named.2

theorem length_pointer {s : String} (named : isSnapshotName s = true) : lib.length (lib.ofString s) ≤ 128 := by
  have safe := safe_of_named named
  simp only [safeComponent, Bool.and_eq_true, decide_eq_true_eq] at safe
  rw [lib.length_ofString]
  exact safe.1.2

theorem eval_attempt_missing {σ : Type} {s : σ} (path : σ → Option (Node B)) {limit : Nat} (missing : path s = none) :
    eval s (regular lib path limit).attempt = .ok (.error (.io true)) := by
  rw [Reads.eval_attempt]
  simp only [regular, Reads.eval, missing]
  rfl

theorem eval_attempt_regular {σ : Type} {s : σ} (path : σ → Option (Node B)) {limit : Nat} {bytes : B}
    (there : path s = some (.file bytes)) (short : lib.length bytes ≤ limit) :
    eval s (regular lib path limit).attempt = .ok (.ok bytes) := by
  rw [Reads.eval_attempt, eval_regular path there short]

/-- The pointer's snapshot is on the disk. -/
theorem Shape.head_committed (shape : Shape lib region root named live removed legacy)
    (first : named.head? = some snapshot) :
    ∃ p, eval root ((committed lib snapshot).zoom fun root => root.snapshots snapshot) = .ok p ∧ p.region = region := by
  cases start : live with
  | cons s rest =>
    have same : s = snapshot := by
      rw [shape.split, start] at first
      exact Option.some.inj first
    have there := shape.linked 0 s (by rw [start]; rfl)
    rw [same] at there
    exact there.eval_committed
  | nil =>
    have none : removed = [] := by
      rcases shape.boundary with ⟨-, empty⟩ | ⟨b, member, -⟩
      · exact empty
      · rw [start] at member
        cases member
    rcases shape.ending with empty | ⟨s, last, there⟩
    · rw [shape.split, start, none, empty] at first
      cases first
    · rw [shape.split, start, none, last] at first
      cases first
      exact there.eval_committed

theorem Shape.eval_predecessor (shape : Shape lib region root named live removed legacy) :
    eval root (predecessor lib) = .ok named.head? := by
  have pointer := shape.pointer
  unfold predecessor
  cases first : named.head? with
  | none =>
    rw [first] at pointer
    rw [Reads.eval_bind_ok (eval_attempt_missing Root.current pointer)]
    rfl
  | some s =>
    rw [first] at pointer
    have listed : s ∈ named := List.mem_of_mem_head? first
    obtain ⟨p, accepted, -⟩ := shape.head_committed first
    rw [Reads.eval_bind_ok (eval_attempt_regular Root.current pointer (length_pointer (shape.names s listed)))]
    simp only [predecessorRead, lib.utf8_ofString]
    rw [Reads.eval_bind_ok accepted]
    rfl

theorem Shape.eval_publishCheck (shape : Shape lib region root named live removed legacy) {other : Region}
    {previous : Option String} (checked : eval root (publishCheck lib other) = .ok previous) :
    previous = named.head? ∧ (named ≠ [] → other = region) := by
  unfold publishCheck at checked
  rw [Reads.eval_bind_ok shape.eval_predecessor] at checked
  cases first : named.head? with
  | none =>
    rw [first] at checked
    cases checked
    exact ⟨rfl, fun nonempty => absurd (List.head?_eq_none_iff.mp first) nonempty⟩
  | some s =>
    rw [first] at checked
    obtain ⟨p, accepted, same⟩ := shape.head_committed first
    have found : eval root (snapshotRegion lib s) = .ok p.region := by
      unfold snapshotRegion
      rw [Reads.eval_bind_ok accepted]
      rfl
    simp only at checked
    rw [Reads.eval_bind_ok found] at checked
    split at checked
    · cases checked
    · rename_i equal
      cases checked
      simp only [bne_iff_ne, ne_eq, not_not] at equal
      exact ⟨rfl, fun _ => equal.symm.trans same⟩

theorem Shape.eval_boundary (shape : Shape lib region root named live removed legacy) :
    (root.retention = none ∧ removed = [] ∧ eval root (retentionBoundary lib) = .ok none) ∨
      ∃ b ∈ live, root.retention = some (.file (lib.ofRetention ⟨1, b⟩)) ∧
        eval root (retentionBoundary lib) = .ok (some b) := by
  rcases shape.boundary with ⟨absent, empty⟩ | ⟨b, member, there⟩
  · refine Or.inl ⟨absent, empty, ?_⟩
    unfold retentionBoundary
    rw [Reads.eval_bind_ok (eval_attempt_missing Root.retention absent)]
    rfl
  · refine Or.inr ⟨b, member, there, ?_⟩
    have listed : b ∈ named := by
      rw [shape.split]
      exact List.mem_append_left _ (List.mem_append_left _ member)
    have valid := shape.names b listed
    have short : lib.length (lib.ofRetention ⟨1, b⟩) ≤ 4096 := by
      rw [lib.length_ofRetention]
      exact size_retention rfl (safe_of_named valid)
    simp only [isSnapshotName, Bool.and_eq_true] at valid
    unfold retentionBoundary
    rw [Reads.eval_bind_ok (eval_attempt_regular Root.retention there short)]
    simp only [retentionRead, lib.retention_ofRetention, bne_self_eq_false, valid.1, valid.2, Bool.not_true, Bool.or_self,
      Bool.false_eq_true, if_false]
    rfl

/-- A record is read back unless the reader's check refuses it. -/
theorem Member.eval_publication (there : Member lib region root snapshot previous) (visited : List String)
    (named : isSnapshotName snapshot = true) (valid : ∀ q, previous = some q → isSnapshotName q = true) :
    ∃ publishedAt, eval root ((publication lib snapshot visited).zoom fun root => root.snapshots snapshot) =
      if previous.all (fun q => !visited.contains q) then .ok (some ⟨1, snapshot, previous, publishedAt⟩)
      else .error .format := by
  obtain ⟨files, found, -, publishedAt, written⟩ := there
  refine ⟨publishedAt, ?_⟩
  have there : Place.at "publication.json" (some (.directory files)) =
      some (.file (lib.ofPublication ⟨1, snapshot, previous, publishedAt⟩)) := written
  have short : lib.length (lib.ofPublication ⟨1, snapshot, previous, publishedAt⟩) ≤ 4096 := by
    rw [lib.length_ofPublication]
    exact size_publication rfl (safe_of_named named) (fun q same => safe_of_named (valid q same)) (lib.stamp_short _)
  have accepted : Publication.accepted ⟨1, snapshot, previous, publishedAt⟩ snapshot visited =
      previous.all (fun q => !visited.contains q) := by
    cases previous with
    | none => simp [Publication.accepted]
    | some q =>
      have chosen := valid q rfl
      simp only [isSnapshotName, Bool.and_eq_true] at chosen
      simp [Publication.accepted, chosen.1, chosen.2]
  rw [Reads.eval_zoom, found]
  unfold publication
  rw [Reads.eval_bind_ok (eval_attempt_regular (Place.at "publication.json") there short)]
  simp only [publicationRead, lib.publication_ofPublication, accepted]
  split <;> rfl

theorem eval_zoom_directory {s : String} (found : root.snapshots s = some (.directory files))
    (named : isSnapshotName s = true) :
    eval root ((snapshotDirectory s).zoom fun root => root.snapshots s) = .ok () := by
  rw [Reads.eval_zoom, found]
  exact eval_snapshotDirectory named

theorem eval_zoom_missing {s : String} (missing : root.snapshots s = none) :
    eval root ((snapshotDirectory s).zoom fun root => root.snapshots s) = .error .notFound := by
  rw [Reads.eval_zoom, missing]
  unfold snapshotDirectory
  split <;> rfl

theorem Legacy.eval_publication (there : Legacy lib region root snapshot) (visited : List String) :
    eval root ((publication lib snapshot visited).zoom fun root => root.snapshots snapshot) = .ok none := by
  obtain ⟨files, p, i, found, unrecorded, -⟩ := there
  have missing : Place.at "publication.json" (some (.directory files)) = none := unrecorded
  rw [Reads.eval_zoom, found]
  unfold publication
  rw [Reads.eval_bind_ok (eval_attempt_missing (Place.at "publication.json") missing)]
  rfl

/-- `member` reads the directory and then the record. -/
theorem eval_member {visited : List String} :
    eval root ((member lib snapshot visited).zoom fun root => root.snapshots snapshot) =
      (eval root ((snapshotDirectory snapshot).zoom fun root => root.snapshots snapshot)).bind fun _ =>
        eval root ((publication lib snapshot visited).zoom fun root => root.snapshots snapshot) := by
  rw [Reads.eval_zoom, Reads.eval_zoom, Reads.eval_zoom, member, Reads.eval_bind]

/-- The snapshot behind a live one is the next that `CURRENT` named before it. -/
theorem Shape.member (shape : Shape lib region root named live removed legacy) {done more : List String}
    (position : live = done ++ snapshot :: more) :
    Member lib region root snapshot (more ++ removed ++ legacy).head? := by
  have there := shape.linked done.length snapshot (by rw [position]; simp)
  have next : named[done.length + 1]? = (more ++ removed ++ legacy).head? := by
    rw [shape.split, position, List.append_assoc, List.append_assoc, List.getElem?_append_right (by omega)]
    simp [List.head?_eq_getElem?]
  rwa [next] at there

theorem Shape.name_of_mem (shape : Shape lib region root named live removed legacy) {done more : List String} {s : String}
    (position : live = done ++ more) (listed : s ∈ more ++ removed ++ legacy) : isSnapshotName s = true := by
  apply shape.names
  rw [shape.split, position, List.append_assoc, List.append_assoc]
  rw [List.append_assoc] at listed
  exact List.mem_append_right done listed

/-- Reading a live snapshot on the chain. -/
theorem Shape.eval_member (shape : Shape lib region root named live removed legacy) {done more : List String}
    (position : live = done ++ snapshot :: more) (visited : List String) :
    ∃ publishedAt, eval root ((Master.member lib snapshot visited).zoom fun root => root.snapshots snapshot) =
      if (more ++ removed ++ legacy).head?.all (fun q => !visited.contains q) then
        .ok (some ⟨1, snapshot, (more ++ removed ++ legacy).head?, publishedAt⟩)
      else .error .format := by
  have there := shape.member position
  have valid : isSnapshotName snapshot = true := shape.name_of_mem position (by simp)
  have next : ∀ q, (more ++ removed ++ legacy).head? = some q → isSnapshotName q = true := by
    intro q first
    have after : live = (done ++ [snapshot]) ++ more := by rw [position]; simp
    exact shape.name_of_mem after (List.mem_of_mem_head? first)
  obtain ⟨publishedAt, read⟩ := there.eval_publication visited valid next
  obtain ⟨files, found, -⟩ := there
  refine ⟨publishedAt, ?_⟩
  rw [Master.eval_member, eval_zoom_directory found valid, read]
  rfl

/-- Follows the records from a snapshot on and lists what it visits, as the readers' loops do. -/
def follow (lib : Serde B) : Nat → List String → Option String → Reader B (List String)
  | _, _, none => pure []
  | 0, _, some _ => .throw .limit
  | room + 1, visited, some snapshot =>
    if visited.contains snapshot then .throw .format
    else do
      let record ← (Master.member lib snapshot (snapshot :: visited)).zoom fun root => root.snapshots snapshot
      match record with
      | none => pure [snapshot]
      | some record =>
        let rest ← follow lib room (snapshot :: visited) record.previousSnapshot
        pure (snapshot :: rest)

/-- Where nothing was removed, the records lead through everything that `CURRENT` named. -/
theorem Shape.eval_follow (shape : Shape lib region root named live removed legacy) (whole : removed = [])
    {done more visited : List String} {room : Nat} (position : live = done ++ more)
    (enough : (more ++ legacy).length ≤ room) (unseen : ∀ s ∈ more ++ legacy, s ∉ visited)
    (distinct : (more ++ legacy).Nodup) :
    eval root (follow lib room visited (more ++ legacy).head?) = .ok (more ++ legacy) := by
  induction more generalizing done visited room with
  | nil =>
    rcases shape.ending with empty | ⟨last, legacyLast, there⟩
    · rw [empty]
      cases room <;> rfl
    · subst legacyLast
      obtain ⟨room, rfl⟩ : ∃ n, room = n + 1 := ⟨room - 1, by simp at enough; omega⟩
      have fresh : visited.contains last = false := by simpa using unseen last (by simp)
      have valid : isSnapshotName last = true := shape.names last (by rw [shape.split]; simp)
      have read : eval root ((Master.member lib last (last :: visited)).zoom fun root => root.snapshots last) =
          .ok none := by
        have unrecorded := there.eval_publication (last :: visited)
        obtain ⟨files, p, i, found, -⟩ := there
        rw [Master.eval_member, eval_zoom_directory found valid, unrecorded]
        rfl
      simp only [List.nil_append, List.head?_cons, follow, fresh, Bool.false_eq_true, if_false]
      rw [Reads.eval_bind_ok read]
      rfl
  | cons s more ih =>
    obtain ⟨room, rfl⟩ : ∃ n, room = n + 1 := ⟨room - 1, by simp at enough; omega⟩
    have fresh : visited.contains s = false := by simpa using unseen s (by simp)
    obtain ⟨apart, distinct⟩ : s ∉ more ++ legacy ∧ (more ++ legacy).Nodup := List.nodup_cons.mp distinct
    obtain ⟨publishedAt, read⟩ := shape.eval_member position (s :: visited)
    have next : (more ++ removed ++ legacy).head? = (more ++ legacy).head? := by rw [whole, List.append_nil]
    have later : ∀ q ∈ more ++ legacy, q ∉ s :: visited := by
      intro q listed
      rw [List.mem_cons, not_or]
      refine ⟨fun same => apart (same ▸ listed), unseen q ?_⟩
      simp only [List.cons_append, List.mem_cons]
      exact Or.inr listed
    have accepted : (more ++ legacy).head?.all (fun q => !(s :: visited).contains q) = true := by
      cases first : (more ++ legacy).head? with
      | none => rfl
      | some q =>
        have unseen := later q (List.mem_of_mem_head? first)
        simpa using unseen
    rw [next, accepted, if_pos rfl] at read
    have rest : eval root (follow lib room (s :: visited) (more ++ legacy).head?) = .ok (more ++ legacy) :=
      ih (show live = (done ++ [s]) ++ more by rw [position]; simp) (by simp at enough ⊢; omega) later distinct
    simp only [List.cons_append, List.head?_cons, follow, fresh, Bool.false_eq_true, if_false]
    rw [Reads.eval_bind_ok read]
    simp only
    rw [Reads.eval_bind_ok rest]
    rfl

end SiriusProxy.Master
