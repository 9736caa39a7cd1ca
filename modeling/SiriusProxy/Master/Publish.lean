import SiriusProxy.Master.Chain

namespace SiriusProxy.Master
open Reads (eval)

variable {B : Type} {lib : Serde B}

/-- An output directory before the first recorded publication: without a pointer, or with a pointer
to a snapshot that has no record. Other entries may be there. -/
structure Initial (w : World lib) : Prop where
  idle : w.phase = .idle
  unretained : w.root.retention = none
  start : (w.named = [] ∧ w.root.current = none) ∨
    ∃ region s, w.named = [s] ∧ isSnapshotName s = true ∧ w.root.current = some (.file (lib.ofString s)) ∧
      Legacy lib region w.root s

def Fresh (root : Root B) (named : List String) (snapshot : String) : Prop :=
  root.snapshots snapshot = none ∧ snapshot ∉ named ∧ isSnapshotName snapshot = true

/-- What a publication under way has ready. -/
def Phase.Publishing (region : Region) (root : Root B) (named : List String) : Phase lib → Prop
  | .idle => True
  | .checked prepared previous _ => Fresh root named prepared.snapshot ∧ previous = named.head? ∧
      (named ≠ [] → prepared.draft.receipt.region = region)
  | .staged snapshot files => Fresh root named snapshot ∧
      ∃ own, (named ≠ [] → own = region) ∧ Recorded lib own files snapshot named.head?
  | .installed snapshot => snapshot ∉ named ∧ isSnapshotName snapshot = true ∧
      ∃ own, (named ≠ [] → own = region) ∧ Member lib own root snapshot named.head?
  | _ => False

variable {region : Region} {root : Root B} {named live removed legacy : List String} {snapshot : String}
  {files : String → Option (Node B)} {w x : World lib}

theorem World.fresh_iff : w.fresh snapshot = true ↔ w.root.snapshots snapshot = none ∧ snapshot ∉ w.named := by
  simp [World.fresh]

theorem PreparedImport.isSnapshotName (prepared : PreparedImport lib) : isSnapshotName prepared.snapshot = true :=
  prepared.complete.named

/-- A new directory disturbs no other. -/
theorem Root.installed_other {s : String} (differs : s ≠ snapshot) :
    (root.installed snapshot files).snapshots s = root.snapshots s :=
  Function.update_of_ne differs ..

/-- A name that was free before is not the one that is asked for, so the snapshot of a member is untouched. -/
theorem Member.install {s : String} {previous : Option String} (there : Member lib region root s previous)
    (fresh : root.snapshots snapshot = none) : Member lib region (root.installed snapshot files) s previous := by
  obtain ⟨own, found, recorded⟩ := there
  have differs : s ≠ snapshot := by
    intro same
    rw [same, fresh] at found
    cases found
  exact ⟨own, (Root.installed_other differs).trans found, recorded⟩

theorem Legacy.install {s : String} (there : Legacy lib region root s) (fresh : root.snapshots snapshot = none) :
    Legacy lib region (root.installed snapshot files) s := by
  obtain ⟨own, p, i, found, facts⟩ := there
  have differs : s ≠ snapshot := by
    intro same
    rw [same, fresh] at found
    cases found
  exact ⟨own, p, i, (Root.installed_other differs).trans found, facts⟩

/-- A new directory that no record names yet changes nothing that the shape speaks of: it is neither `CURRENT` nor
among those that lead from it. -/
theorem Shape.install (shape : Shape lib region root named live removed legacy) (fresh : Fresh root named snapshot) :
    Shape lib region (root.installed snapshot files) named live removed legacy where
  split := shape.split
  pointer := shape.pointer
  names := shape.names
  distinct := shape.distinct
  linked := fun i s found => (shape.linked i s found).install fresh.1
  gone := by
    intro s member
    have differs : s ≠ snapshot := by
      intro same
      refine fresh.2.1 ?_
      rw [shape.split, ← same]
      exact List.mem_append_left _ (List.mem_append_right _ member)
    exact (Root.installed_other differs).trans (shape.gone s member)
  ending := by
    rcases shape.ending with empty | ⟨s, last, there⟩
    · exact Or.inl empty
    · exact Or.inr ⟨s, last, there.install fresh.1⟩
  boundary := shape.boundary

/-- The pointer moves to an installed snapshot whose record names the one before it. -/
theorem Shape.point (shape : Shape lib region root named live removed legacy) (new : snapshot ∉ named)
    (valid : isSnapshotName snapshot = true) (there : Member lib region root snapshot named.head?) :
    Shape lib region { root with current := some (.file (lib.ofString snapshot)) } (snapshot :: named)
      (snapshot :: live) removed legacy where
  split := by rw [shape.split]; rfl
  pointer := rfl
  names := by
    intro s member
    rcases List.mem_cons.mp member with rfl | old
    · exact valid
    · exact shape.names s old
  distinct := List.nodup_cons.mpr ⟨new, shape.distinct⟩
  linked := by
    intro i s found
    cases i with
    | zero =>
      cases found
      rw [List.head?_eq_getElem?] at there
      exact there
    | succ i => exact shape.linked i s found
  gone := shape.gone
  ending := shape.ending
  boundary := by
    rcases shape.boundary with none | ⟨b, member, recorded⟩
    · exact Or.inl none
    · exact Or.inr ⟨b, List.mem_cons_of_mem _ member, recorded⟩

/-- A directory that never had a pointer holds no region yet. -/
theorem Shape.adopt (shape : Shape lib region root named live removed legacy) {own : Region}
    (same : named ≠ [] → own = region) : Shape lib own root named live removed legacy := by
  by_cases empty : named = []
  · have none : live = [] ∧ removed = [] ∧ legacy = [] := by
      have parts := shape.split
      rw [empty] at parts
      simpa [and_assoc] using parts.symm
    refine { shape with linked := ?_, ending := Or.inl none.2.2 }
    intro i s found
    rw [none.1] at found
    cases found
  · rw [same empty]
    exact shape

structure Publishing (region : Region) (w : World lib) (live removed legacy : List String) : Prop where
  shape : Shape lib region w.root w.named live removed legacy
  phase : w.phase.Publishing region w.root w.named

/-- An initial directory is in shape with whatever an earlier build has left. -/
theorem Initial.publishing (initial : Initial w) : ∃ region live legacy, Publishing region w live [] legacy := by
  rcases initial.start with ⟨unnamed, absent⟩ | ⟨region, s, named, valid, pointer, there⟩
  · refine ⟨.jp, [], [], ⟨?_, by rw [initial.idle]; trivial⟩⟩
    exact ⟨unnamed, by rw [absent, unnamed]; rfl, by simp [unnamed], by simp [unnamed], by simp, by simp, Or.inl rfl,
      Or.inl ⟨initial.unretained, rfl⟩⟩
  · refine ⟨region, [], [s], ⟨?_, by rw [initial.idle]; trivial⟩⟩
    exact ⟨named, by rw [pointer, named]; rfl, by simpa [named] using valid, by simp [named], by simp, by simp,
      Or.inr ⟨s, rfl, there⟩, Or.inl ⟨initial.unretained, rfl⟩⟩

/-- The steps of `publish`; a pass of retention is none of them. -/
def Label.publishes : Label lib → Prop
  | .prune _ _ => False
  | _ => True

/-- The check before a publication either hands it on to its record with the predecessor that `CURRENT` names, or
ends it. -/
theorem Publishing.checks (inv : Publishing region w live removed legacy) (prepared : PreparedImport lib)
    (publishedAt : Instant) (fresh : w.fresh prepared.snapshot = true) :
    Publishing region (w.publish prepared publishedAt) live removed legacy := by
  unfold World.publish
  split
  · exact inv
  · rename_i previous checked
    obtain ⟨absent, unnamed⟩ := World.fresh_iff.mp fresh
    exact ⟨inv.shape, ⟨absent, unnamed, prepared.isSnapshotName⟩, inv.shape.eval_publishCheck checked⟩

/-- What one step of a publication keeps, by its phases: the record goes to the staged files, the staged files to
their name, and the pointer to that name. A step that fails or stops leaves the directory as it is, so an
interrupted publication is one that nobody can see. -/
theorem Publishing.step {label : Label lib} (inv : Publishing region w live removed legacy) (publishes : label.publishes)
    (taken : step w label = some x) : ∃ region live legacy, Publishing region x live removed legacy := by
  have phase := inv.phase
  cases label with
  | prune keep budget => exact publishes.elim
  | publish prepared publishedAt =>
    simp only [Master.step] at taken
    split at taken
    · split at taken
      · rename_i _ fresh
        cases taken
        exact ⟨region, live, legacy, inv.checks prepared publishedAt fresh⟩
      · cases taken
    · cases taken
  | record =>
    simp only [Master.step] at taken
    split at taken
    · rename_i prepared previous publishedAt checked
      cases taken
      rw [checked] at phase
      obtain ⟨fresh, rfl, same⟩ := phase
      exact ⟨region, live, legacy, inv.shape, fresh, _, same, recorded_prepared prepared _ publishedAt⟩
    · cases taken
  | install =>
    simp only [Master.step] at taken
    split at taken
    · rename_i snapshot files staged
      cases taken
      rw [staged] at phase
      obtain ⟨fresh, own, same, recorded⟩ := phase
      refine ⟨region, live, legacy, inv.shape.install fresh, fresh.2.1, fresh.2.2, own, same, files, ?_, recorded⟩
      exact Function.update_self ..
    · cases taken
  | point =>
    simp only [Master.step] at taken
    split at taken
    · rename_i snapshot installed
      cases taken
      rw [installed] at phase
      obtain ⟨new, valid, own, same, there⟩ := phase
      exact ⟨own, snapshot :: live, legacy, (inv.shape.adopt same).point new valid there, trivial⟩
    · cases taken
  | bound =>
    simp only [Master.step] at taken
    split at taken
    · rename_i keep plan removals planned
      rw [planned] at phase
      exact phase.elim
    · cases taken
  | remove =>
    simp only [Master.step] at taken
    split at taken
    · rename_i keep old snapshot removals removing
      rw [removing] at phase
      exact phase.elim
    · cases taken
  | stop =>
    cases taken
    exact ⟨region, live, legacy, inv.shape, trivial⟩

theorem Publishing.reach {start : World lib} (initial : Initial start)
    (reach : Run.Reach Master.step (fun _ label => Label.publishes label) start w) :
    ∃ region live legacy, Publishing region w live [] legacy := by
  refine reach.invariant (P := fun w => ∃ region live legacy, Publishing region w live [] legacy) initial.publishing ?_
  intro s label t inv publishes taken
  obtain ⟨region, live, legacy, inv⟩ := inv
  exact inv.step publishes taken

/-- Planning a retention pass only reads. -/
theorem World.prune_kept (w : World lib) (keep budget : Nat) :
    (w.prune keep budget).root = w.root ∧ (w.prune keep budget).named = w.named := by
  unfold World.prune
  split
  · exact ⟨rfl, rfl⟩
  · exact ⟨rfl, rfl⟩
  · simp only
    split
    · exact ⟨rfl, rfl⟩
    · exact ⟨rfl, rfl⟩

/-- What a step does to the disk and to what `CURRENT` has named. -/
theorem step_root {label : Label lib} (taken : step w label = some x) :
    x.root = w.root ∧ x.named = w.named ∨
    (∃ s files, label = .install ∧ w.phase = .staged s files ∧ x.root = w.root.installed s files ∧ x.named = w.named) ∨
    (∃ s, label = .point ∧ w.phase = .installed s ∧
      x.root = { w.root with current := some (.file (lib.ofString s)) } ∧ x.named = s :: w.named) ∨
    (∃ keep plan removals, label = .bound ∧ w.phase = .planned keep plan removals ∧
      x.root = { w.root with retention := some (.file (lib.ofRetention ⟨1, plan.boundary⟩)) } ∧ x.named = w.named) ∨
    ∃ keep old s removals, label = .remove ∧ w.phase = .removing keep old (s :: removals) ∧
      x.root = w.root.without s ∧ x.named = w.named := by
  cases label with
  | publish prepared publishedAt =>
    simp only [step] at taken
    split at taken
    · split at taken
      · cases taken
        unfold World.publish
        split <;> exact Or.inl ⟨rfl, rfl⟩
      · cases taken
    · cases taken
  | prune keep budget =>
    simp only [step] at taken
    split at taken
    · cases taken
      exact Or.inl (World.prune_kept w keep budget)
    · cases taken
  | record =>
    simp only [step] at taken
    split at taken
    · cases taken
      exact Or.inl ⟨rfl, rfl⟩
    · cases taken
  | install =>
    simp only [step] at taken
    split at taken
    · rename_i snapshot files staged
      cases taken
      exact Or.inr (Or.inl ⟨snapshot, files, rfl, staged, rfl, rfl⟩)
    · cases taken
  | point =>
    simp only [step] at taken
    split at taken
    · rename_i snapshot installed
      cases taken
      exact Or.inr (Or.inr (Or.inl ⟨snapshot, rfl, installed, rfl, rfl⟩))
    · cases taken
  | bound =>
    simp only [step] at taken
    split at taken
    · rename_i keep plan removals planned
      cases taken
      exact Or.inr (Or.inr (Or.inr (Or.inl ⟨keep, plan, removals, rfl, planned, rfl, rfl⟩)))
    · cases taken
  | remove =>
    simp only [step] at taken
    split at taken
    · rename_i keep old snapshot removals removing
      cases taken
      exact Or.inr (Or.inr (Or.inr (Or.inr ⟨keep, old, snapshot, removals, rfl, removing, rfl, rfl⟩)))
    · cases taken
  | stop =>
    cases taken
    exact Or.inl ⟨rfl, rfl⟩

/-- Only the pointer step changes what `CURRENT` names, and it names the snapshot it adds. -/
theorem step_pointer {label : Label lib} (taken : step w label = some x) :
    x.root.current = w.root.current ∧ x.named = w.named ∨
      ∃ s, label = .point ∧ x.root.current = some (.file (lib.ofString s)) ∧ x.named = s :: w.named := by
  rcases step_root taken with ⟨root, named⟩ | ⟨_, _, -, -, root, named⟩ | ⟨s, pointed, -, root, named⟩ |
    ⟨_, _, _, -, -, root, named⟩ | ⟨_, _, _, _, -, -, root, named⟩
  · exact Or.inl ⟨by rw [root], named⟩
  · exact Or.inl ⟨by rw [root]; rfl, named⟩
  · exact Or.inr ⟨s, pointed, by rw [root], named⟩
  · exact Or.inl ⟨by rw [root], named⟩
  · exact Or.inl ⟨by rw [root]; rfl, named⟩

/-- The region of every snapshot on the chain can be read, and is the one of the chain. -/
theorem Shape.eval_region (shape : Shape lib region root named live [] legacy) {s : String} (member : s ∈ named) :
    eval root (snapshotRegion lib s) = .ok region ∧
      ((∃ previous, Member lib region root s previous) ∨ Legacy lib region root s) := by
  have found : ((∃ previous, Member lib region root s previous) ∨ Legacy lib region root s) := by
    rw [shape.split, List.append_nil] at member
    rcases List.mem_append.mp member with inside | last
    · obtain ⟨i, at_⟩ := List.mem_iff_getElem?.mp inside
      exact Or.inl ⟨_, shape.linked i s at_⟩
    · rcases shape.ending with empty | ⟨only, same, there⟩
      · rw [empty] at last
        cases last
      · rw [same] at last
        cases List.mem_singleton.mp last
        exact Or.inr there
  have accepted : ∃ p, eval root ((committed lib s).zoom fun root => root.snapshots s) = .ok p ∧ p.region = region := by
    rcases found with ⟨previous, there⟩ | there
    · exact there.eval_committed
    · exact there.eval_committed
  obtain ⟨p, accepted, rfl⟩ := accepted
  refine ⟨?_, found⟩
  unfold snapshotRegion
  rw [Reads.eval_bind_ok accepted]
  rfl

/-- In every run of publications, however they end: the pointer names the newest of the snapshots it
has named, all of them are complete and of one region, and following the records from it visits
exactly these; only the last step of a publication moves the pointer. -/
theorem publication_exact {start : World lib} (initial : Initial start)
    (reach : Run.Reach step (fun _ label => Label.publishes label) start w) :
    w.root.current = w.named.head?.map (fun s => .file (lib.ofString s)) ∧ w.named.Nodup ∧
    (∃ region, ∀ s ∈ w.named, eval w.root (snapshotRegion lib s) = .ok region ∧
      ((∃ previous, Member lib region w.root s previous) ∨ Legacy lib region w.root s)) ∧
    (∀ room, w.named.length ≤ room → eval w.root (follow lib room [] w.named.head?) = .ok w.named) ∧
    (∀ label x, step w label = some x → x.root.current = w.root.current ∧ x.named = w.named ∨
      ∃ s, label = .point ∧ x.root.current = some (.file (lib.ofString s)) ∧ x.named = s :: w.named) := by
  obtain ⟨region, live, legacy, inv⟩ := Publishing.reach initial reach
  have shape := inv.shape
  have named : w.named = live ++ legacy := by
    have split := shape.split
    rwa [List.append_nil] at split
  refine ⟨shape.pointer, shape.distinct, ⟨region, fun s member => shape.eval_region member⟩, fun room enough => ?_,
    fun _ _ taken => step_pointer taken⟩
  have distinct := shape.distinct
  rw [named] at enough distinct ⊢
  exact shape.eval_follow rfl (show live = [] ++ live from rfl) enough (by simp) distinct

/-- Texts as the values they were written from; a table is its text with its SHA-256. -/
inductive Doc where
  | text (s : String)
  | manifest (m : Manifest)
  | receipt (r : ImportReceipt)
  | inventory (i : Inventory)
  | publication (p : Publication)
  | retention (r : RetentionRecord)
  | published (p : PublishedManifest)
  | content (c : Content)
  | table (json sha256 : String)
  deriving DecidableEq

def Doc.size : Doc → Nat
  | .text s => s.utf8ByteSize
  | .manifest m => JsonText.size m.text
  | .receipt r => JsonText.size r.text
  | .inventory i => JsonText.size i.text
  | .publication p => JsonText.size (p.text fun _ => "2026-01-01T00:00:00Z")
  | .retention r => JsonText.size r.text
  | .table json _ => json.utf8ByteSize
  | _ => 0

def docSerde (sha256 : Doc → String) : Serde Doc where
  length := Doc.size
  sha256 := sha256
  ofString := .text
  utf8 := fun | .text s => some s | _ => none
  ofManifest := .manifest
  manifest := fun | .manifest m => some m | _ => none
  ofReceipt := .receipt
  receipt := fun | .receipt r => some r.value | _ => none
  ofInventory := .inventory
  inventory := fun | .inventory i => some i | _ => none
  ofPublication := .publication
  publication := fun | .publication p => some p | _ => none
  ofRetention := .retention
  retention := fun | .retention r => some r | _ => none
  ofPublished := .published
  published := fun | .published p => some p | _ => none
  ofContent := .content
  validJson := fun | .table _ _ => true | _ => false
  stamp := fun _ => "2026-01-01T00:00:00Z"
  utf8_ofString _ := rfl
  length_ofString _ := rfl
  manifest_ofManifest _ := rfl
  length_ofManifest _ := rfl
  manifest_shortest b m read := by
    cases b <;> cases read
    exact Nat.le_refl _
  receipt_ofReceipt _ := rfl
  length_ofReceipt _ := rfl
  inventory_ofInventory _ := rfl
  length_ofInventory _ := rfl
  publication_ofPublication _ := rfl
  length_ofPublication _ := rfl
  stamp_short _ := by decide +kernel
  retention_ofRetention _ := rfl
  length_ofRetention _ := rfl
  published_ofPublished _ := rfl

/-- The SHA-256 of the table `[]`. -/
def emptyTableSha : String := "4f53cda18c2baa0c0354bb5f9a3ecbe5ed12ab4d8e11ba873c2f11161202b945"

def sampleManifest : Manifest where
  version := "1.0"
  files := [⟨"MasterA.bin", "ffffffffffffffffffffffffffffffffffffffffffffffffffffffffffffffff", 96⟩]

def sampleIndex : Inventory where
  schemaVersion := 1
  version := "1.0"
  files := [⟨"MasterA.json", 2, emptyTableSha⟩]

def sampleScope : Scope := ⟨.jp, "production", .android⟩

def sampleContent : Content where
  scope := sampleScope
  sourceManifest := sampleManifest
  files := sampleIndex.files

/-- The SHA-256 of that content. -/
def sampleContentSha : String := "2d5f7c23e3c525aa30ca64c6a35c4ec27317795ebc3dc87087062a7928d1b98b"

def sampleSerde : Serde Doc := docSerde fun
  | .table _ sha256 => sha256
  | .content content => if content = sampleContent then sampleContentSha else ""
  | _ => ""

def sampleReceipt (snapshot : String) : ImportReceipt where
  version := "1.0"
  snapshot := snapshot
  tables := 1
  jsonBytes := 2
  source := .localImport
  region := .jp
  resourceVersion := none

def sampleTables : String → Option (Node Doc) := write (fun _ => none) "MasterA.json" (.table "[]" emptyTableSha)

theorem sample_named : isSnapshotName "master-a" = true := by decide +kernel

theorem sample_complete {snapshot : String} (named : isSnapshotName snapshot = true) :
    Complete sampleSerde
      (stage sampleSerde sampleTables sampleIndex (.manifest sampleManifest) (sampleReceipt snapshot)).files
      (sampleReceipt snapshot) sampleManifest sampleIndex := by
  have parsed : Manifest.parse sampleSerde (.manifest sampleManifest) = .ok sampleManifest := by decide +kernel
  have indexed : sampleIndex.validate sampleManifest = .ok () := by decide +kernel
  refine stage_complete named rfl rfl rfl (show 2 ≤ maxTotal by decide) (by simp [sampleReceipt]) parsed (Inventory.validate_ok.mp indexed) ?_
  intro f member
  cases List.mem_singleton.mp member
  exact ⟨.table "[]" emptyTableSha, write_self .., by decide +kernel, rfl⟩

def samplePrepared (snapshot : String) (named : isSnapshotName snapshot = true) : PreparedImport sampleSerde where
  draft := stage sampleSerde sampleTables sampleIndex (.manifest sampleManifest) (sampleReceipt snapshot)
  source := sampleManifest
  index := sampleIndex
  complete := sample_complete named

/-- The first publication stops after its rename; two more succeed. -/
def interrupted : List (Label sampleSerde) :=
  [.publish (samplePrepared "master-a" (by decide +kernel)) 1, .record, .install, .stop,
    .publish (samplePrepared "master-b" (by decide +kernel)) 2, .record, .install, .point,
    .publish (samplePrepared "master-c" (by decide +kernel)) 3, .record, .install, .point]

theorem publication_exact_interrupted : ∃ w, Run.exec step ({ root := {} } : World sampleSerde) interrupted = some w ∧
    w.named = ["master-c", "master-b"] ∧
    eval w.root (follow sampleSerde 2 [] (some "master-c")) = .ok ["master-c", "master-b"] := by
  have run : (Run.exec step ({ root := {} } : World sampleSerde) interrupted).map (·.named) =
      some ["master-c", "master-b"] := by decide +kernel
  obtain ⟨w, ran, named⟩ := Option.map_eq_some_iff.mp run
  have initial : Initial ({ root := {} } : World sampleSerde) := ⟨rfl, rfl, Or.inl ⟨rfl, rfl⟩⟩
  have reach : Run.Reach step (fun _ label => Label.publishes label) ({ root := {} } : World sampleSerde) w := by
    refine Run.Reach.exec_allowed .start ran fun label member s => ?_
    revert label
    simp [interrupted, Label.publishes]
  obtain ⟨-, -, -, chain, -⟩ := publication_exact initial reach
  have visited := chain 2 (by rw [named]; decide)
  rw [named] at visited
  exact ⟨w, ran, named, visited⟩

end SiriusProxy.Master
