import SiriusProxy.Master.Sync
import SiriusProxy.Master.Interleaved

namespace SiriusProxy.Master
open Reads (eval)

variable {B : Type} {lib : Serde B} {scope : Scope} {root after : Root B} {p q : PublishedManifest}

/-- The manifest that a directory serves for its `CURRENT`. -/
def Serves (lib : Serde B) (scope : Scope) (root : Root B) (p : PublishedManifest) : Prop :=
  eval root (manifest lib none scope) = .ok (document lib p)

/-- The content identity and the provenance that travels with it. -/
structure SameContent (p q : PublishedManifest) : Prop where
  contentSha256 : p.contentSha256 = q.contentSha256
  files : p.files = q.files
  version : p.version = q.version
  sourceManifest : p.sourceManifest = q.sourceManifest
  resourceVersion : p.resourceVersion = q.resourceVersion

theorem SameContent.refl (p : PublishedManifest) : SameContent p p := ⟨rfl, rfl, rfl, rfl, rfl⟩

theorem SameContent.trans {r : PublishedManifest} (first : SameContent p q) (second : SameContent q r) : SameContent p r where
  contentSha256 := first.contentSha256.trans second.contentSha256
  files := first.files.trans second.files
  version := first.version.trans second.version
  sourceManifest := first.sourceManifest.trans second.sourceManifest
  resourceVersion := first.resourceVersion.trans second.resourceVersion

/-- No other content has the hash of what `p` publishes. -/
def Collisionless (lib : Serde B) (scope : Scope) (p : PublishedManifest) : Prop :=
  ∀ content, digest lib (lib.ofContent content) = contentHash lib scope p.sourceManifest p.files →
    content = { scope, sourceManifest := p.sourceManifest, files := p.files }

theorem strictlyOrdered_pairwise {files : List Entry} (ordered : strictlyOrdered files = true) :
    files.Pairwise fun a b => a.name ≤ b.name := by
  induction files with
  | nil => exact List.Pairwise.nil
  | cons a rest ih =>
    cases rest with
    | nil => exact List.pairwise_singleton _ a
    | cons b rest =>
      simp only [strictlyOrdered, Bool.and_eq_true, decide_eq_true_eq] at ordered
      have later := ih ordered.2
      refine List.pairwise_cons.mpr ⟨fun c member => ?_, later⟩
      rcases List.mem_cons.mp member with rfl | beyond
      · exact le_of_lt ordered.1
      · exact le_trans (le_of_lt ordered.1) ((List.pairwise_cons.mp later).1 c beyond)

theorem sorted_of_ordered {m : Manifest} (ordered : strictlyOrdered m.files = true) : m.sorted = m := by
  have same : m.files.insertionSort (fun a b => a.name ≤ b.name) = m.files :=
    (strictlyOrdered_pairwise ordered).insertionSort_eq
  simp only [Manifest.sorted, same]

/-- Anything a directory serves was made by `published`. -/
theorem manifest_shape {d : Document B} (read : eval root (manifest lib none scope) = .ok d) :
    scope.valid = true ∧ ∃ snapshot provenance index, isSnapshotName snapshot = true ∧
      d = document lib (published lib scope snapshot provenance index) := by
  unfold manifest at read
  split at read
  · cases read
  · rename_i valid
    obtain ⟨snapshot, -, read⟩ := Reads.eval_bind_eq_ok read
    rw [Reads.eval_zoom] at read
    unfold manifestOf at read
    obtain ⟨⟨⟩, directory, read⟩ := Reads.eval_bind_eq_ok read
    obtain ⟨provenance, -, read⟩ := Reads.eval_bind_eq_ok read
    split at read
    · cases read
    · obtain ⟨index, -, read⟩ := Reads.eval_bind_eq_ok read
      refine ⟨by simpa using valid, snapshot, provenance, index, ?_, (Except.ok.inj read).symm⟩
      rw [← Reads.eval_zoom (fun root : Root B => root.snapshots snapshot)] at directory
      exact (directory_of_eval directory).1

theorem serves_of_ownManifest (own : ownManifest lib scope root = some p) :
    Serves lib scope root p ∧ ∃ snapshot provenance index, isSnapshotName snapshot = true ∧
      p = published lib scope snapshot provenance index := by
  unfold ownManifest at own
  split at own
  · cases own
  · rename_i d read
    obtain ⟨-, snapshot, provenance, index, named, rfl⟩ := manifest_shape read
    have same : lib.published (document lib (published lib scope snapshot provenance index)).bytes =
        some (published lib scope snapshot provenance index) := lib.published_ofPublished _
    cases same.symm.trans own
    exact ⟨read, snapshot, provenance, index, named, rfl⟩

/-- A manifest with the content of one that passes passes. -/
theorem SameContent.validate (same : SameContent q p) (schema : q.schemaVersion = 1) (own : q.scope = scope)
    (named : isSnapshotName q.snapshot = true) (passed : p.validate lib scope = .ok ()) :
    q.validate lib scope = .ok () := by
  simp only [isSnapshotName, Bool.and_eq_true] at named
  unfold PublishedManifest.validate at passed ⊢
  split at passed
  · cases passed
  · rename_i shape
    rw [if_neg]
    · rw [same.sourceManifest, same.version, same.files, same.contentSha256]
      exact passed
    · rw [same.version, same.sourceManifest, same.resourceVersion]
      simp only [Bool.or_eq_true, not_or] at shape
      simp only [schema, own, named.1, named.2, Bool.or_eq_true, not_or]
      exact ⟨⟨⟨⟨⟨⟨by simp, by simp⟩, shape.1.1.1.1.2⟩, by simp⟩, by simp⟩, shape.1.2⟩, shape.2⟩

/-- The owner answers with the manifest it serves, or not at all. -/
def Answers (lib : Serde B) (owner : Owner B) (p : PublishedManifest) : Prop :=
  ∀ response bytes, owner.manifest = some response → response.body = some bytes → bytes = (document lib p).bytes

theorem download_ok {response : Option (Response B)} {limit : Nat} {bytes : B}
    (got : download lib response limit = .ok bytes) : ∃ r, response = some r ∧ r.body = some bytes := by
  unfold download at got
  split at got
  · cases got
  · rename_i r
    split at got
    · cases got
    · split at got
      · cases got
      · rename_i body there
        split at got
        · cases got
        · cases got
          exact ⟨r, rfl, there⟩

theorem Answers.target {owner : Owner B} (answers : Answers lib owner p) {target : PublishedManifest}
    (got : syncManifest lib scope owner.manifest = .ok target) : target = p ∧ p.validate lib scope = .ok () := by
  unfold syncManifest at got
  split at got
  · cases got
  · rename_i bytes downloaded
    obtain ⟨r, response, body⟩ := download_ok downloaded
    have read : lib.published bytes = some p := by
      rw [answers r bytes response body]
      exact lib.published_ofPublished p
    rw [read] at got
    simp only at got
    split at got
    · cases got
    · rename_i passed
      cases got
      exact ⟨rfl, passed⟩

variable {owner : Owner B} {uuid : Uuid} {publishedAt : Instant} {late : Bool} {fault : Option Fault} {outcome : Outcome}

theorem readyUpdate_ok {ready : Ready B} (made : readyUpdate lib scope owner root uuid late fault = .ok ready) :
    ∃ target, syncManifest lib scope owner.manifest = .ok target ∧
      (unchanged lib scope root target (ownManifest lib scope root) = true ∧ ready = .unchanged target ∨
        ∃ draft transfer, prepareRegistry lib transfer.files target uuid = .ok draft ∧
          ready = .prepared target draft transfer) := by
  unfold readyUpdate at made
  split at made
  · cases made
  · split at made
    · cases made
    · rename_i target got
      refine ⟨target, got, ?_⟩
      split at made
      · rename_i same
        cases made
        exact Or.inl ⟨same, rfl⟩
      · split at made
        · cases made
        · split at made
          · cases made
          · rename_i transfer _
            split at made
            · cases made
            · rename_i draft prepared
              split at made
              · cases made
              · cases made
                exact Or.inr ⟨draft, transfer, prepared, rfl⟩

/-- What an update has done that ended well: nothing, or a publication of what it prepared. -/
theorem update_ok (done : update lib scope owner root uuid publishedAt late fault = (.ok outcome, after)) :
    ∃ target, syncManifest lib scope owner.manifest = .ok target ∧
      (unchanged lib scope root target (ownManifest lib scope root) = true ∧ after = root ∨
        ∃ draft files receipt, prepareRegistry lib files target uuid = .ok draft ∧
          publish lib draft root publishedAt fault = (.ok receipt, after)) := by
  unfold update at done
  split at done
  · cases done
  · rename_i known made
    obtain ⟨target, got, ⟨same, ready⟩ | ⟨draft, transfer, -, ready⟩⟩ := readyUpdate_ok made
    · cases done
      exact ⟨target, got, Or.inl ⟨same, rfl⟩⟩
    · cases ready
  · rename_i known draft transfer made
    obtain ⟨target, got, ⟨same, ready⟩ | ⟨draft', transfer', prepared, ready⟩⟩ := readyUpdate_ok made
    · cases ready
    · cases ready
      split at done
      · cases done
      · rename_i receipt finish published
        cases done
        exact ⟨known, got, Or.inr ⟨draft, transfer.files, receipt, prepared, published⟩⟩

theorem prepareRegistry_receipt {files : String → Option (Node B)} {draft : Draft B}
    (prepared : prepareRegistry lib files p uuid = .ok draft) :
    draft.receipt.resourceVersion = p.resourceVersion ∧ draft.receipt.region = p.scope.region ∧
      p.validate lib p.scope = .ok () := by
  unfold prepareRegistry at prepared
  obtain ⟨⟨⟩, passed, prepared⟩ := bind_ok prepared
  obtain ⟨total, -, prepared⟩ := bind_ok prepared
  cases prepared
  exact ⟨rfl, rfl, passed⟩

/-- A consumer that publishes what it prepared serves the same content. -/
theorem hop_updated {files : String → Option (Node B)} {draft : Draft B} {receipt : ImportReceipt}
    (passed : p.validate lib scope = .ok ()) (valid : scope.valid = true)
    (prepared : prepareRegistry lib files p uuid = .ok draft)
    (published : publish lib draft root publishedAt fault = (.ok receipt, after)) :
    ∃ q, Serves lib scope after q ∧ SameContent q p ∧ q.validate lib scope = .ok () := by
  have checks := PublishedManifest.valid_of_validate passed
  obtain ⟨resource, region, -⟩ := prepareRegistry_receipt prepared
  have complete := prepareRegistry_complete prepared
  have same := (publish_ok published).1
  rw [checks.own] at region
  obtain ⟨-, serves, validates⟩ := publish_complete complete published valid (by rw [same, region])
  refine ⟨_, serves, ?_, validates⟩
  have sorted := sorted_of_ordered checks.ordered
  subst same
  exact {
    contentSha256 := by
      simp only [Complete.published, Master.published, sorted]
      exact checks.content
    files := rfl
    version := checks.version.symm
    sourceManifest := sorted
    resourceVersion := resource }

/-- A consumer that finds nothing to do has the same content. -/
theorem hop_unchanged (passed : p.validate lib scope = .ok ()) (collisionless : Collisionless lib scope p)
    (same : unchanged lib scope root p (ownManifest lib scope root) = true) :
    ∃ q, Serves lib scope root q ∧ SameContent q p ∧ q.validate lib scope = .ok () := by
  unfold unchanged at same
  obtain ⟨q, own, alike⟩ := Option.any_eq_true _ _ |>.mp same
  simp only [Bool.and_eq_true, beq_iff_eq] at alike
  obtain ⟨⟨hash, resource⟩, -⟩ := alike
  obtain ⟨serves, snapshot, provenance, index, named, rfl⟩ := serves_of_ownManifest own
  have checks := PublishedManifest.valid_of_validate passed
  have content := collisionless { scope, sourceManifest := provenance.source.sorted, files := index.files }
    (hash.trans checks.content.symm)
  have source : provenance.source.sorted = p.sourceManifest := congrArg Content.sourceManifest content
  have alike : SameContent (published lib scope snapshot provenance index) p := {
    contentSha256 := hash
    files := congrArg Content.files content
    version := (congrArg Manifest.version source).trans checks.version.symm
    sourceManifest := source
    resourceVersion := resource }
  exact ⟨_, serves, alike, alike.validate rfl rfl named passed⟩

/-- One hop: a consumer that has updated from an owner serves what the owner serves. -/
theorem update_same (serves : Serves lib scope root p) (answers : Answers lib owner p) (collisionless : Collisionless lib scope p)
    {consumer : Root B} (done : update lib scope owner consumer uuid publishedAt late fault = (.ok outcome, after)) :
    ∃ q, Serves lib scope after q ∧ SameContent q p ∧ q.validate lib scope = .ok () := by
  obtain ⟨valid, -⟩ := manifest_shape serves
  obtain ⟨target, got, path⟩ := update_ok done
  obtain ⟨rfl, passed⟩ := answers.target got
  rcases path with ⟨same, rfl⟩ | ⟨draft, files, receipt, prepared, published⟩
  · exact hop_unchanged passed collisionless same
  · exact hop_updated passed valid prepared published

/-- Directories that consumers have synchronised from each other, starting with one owner. -/
inductive Hops (lib : Serde B) (scope : Scope) (origin : Root B) : Root B → Prop
  | origin : Hops lib scope origin origin
  | hop {serving consumer after : Root B} {p : PublishedManifest} {owner : Owner B} {uuid : Uuid} {publishedAt : Instant}
      {late : Bool} {fault : Option Fault} {outcome : Outcome} : Hops lib scope origin serving →
      Serves lib scope serving p → Answers lib owner p →
      update lib scope owner consumer uuid publishedAt late fault = (.ok outcome, after) → Hops lib scope origin after

theorem Collisionless.same (collisionless : Collisionless lib scope p) (same : SameContent q p) :
    Collisionless lib scope q := by
  unfold Collisionless
  rw [same.sourceManifest, same.files]
  exact collisionless

theorem Serves.unique (first : Serves lib scope root p) (second : Serves lib scope root q) : p = q := by
  have bytes : lib.ofPublished p = lib.ofPublished q := congrArg Document.bytes (Except.ok.inj (first.symm.trans second))
  have read := congrArg lib.published bytes
  rw [lib.published_ofPublished, lib.published_ofPublished] at read
  exact Option.some.inj read

theorem Hops.same {origin last : Root B} (hops : Hops lib scope origin last) (serves : Serves lib scope origin p)
    (collisionless : Collisionless lib scope p) : ∃ q, Serves lib scope last q ∧ SameContent q p := by
  induction hops with
  | origin => exact ⟨p, serves, .refl p⟩
  | hop _ serving answers done ih =>
    obtain ⟨q, previous, same⟩ := ih
    cases serving.unique previous
    obtain ⟨r, next, again, -⟩ := update_same previous answers (collisionless.same same) done
    exact ⟨r, next, again.trans same⟩

/-- A draft that one of the two writers has accepted. -/
def Prepared (lib : Serde B) (draft : Draft B) : Prop :=
  (∃ input unpack origin resourceVersion region uuid,
    prepareDirectory lib input unpack origin resourceVersion region uuid = .ok draft) ∨
  ∃ staged manifest uuid, prepareRegistry lib staged manifest uuid = .ok draft

theorem Prepared.complete {draft : Draft B} (prepared : Prepared lib draft) :
    ∃ source index, Complete lib draft.files draft.receipt source index := by
  rcases prepared with ⟨_, _, _, _, _, _, accepted⟩ | ⟨_, manifest, _, accepted⟩
  · exact prepareDirectory_complete accepted
  · exact ⟨_, _, prepareRegistry_complete accepted⟩

/-- An owner with one published snapshot. -/
def samplePublished : Root Doc := (publish sampleSerde (samplePrepared "master-a" sample_named).draft {} 1 none).2

def sampleTarget : PublishedManifest :=
  Complete.published sampleSerde sampleScope (sampleReceipt "master-a") sampleManifest sampleIndex

theorem sample_serves : Serves sampleSerde sampleScope samplePublished sampleTarget := by
  have published : (publish sampleSerde (samplePrepared "master-a" sample_named).draft {} 1 none).1 =
      .ok (sampleReceipt "master-a") := by decide +kernel
  exact (publish_complete (sample_complete sample_named) (Prod.ext published rfl) (by decide +kernel) rfl).2.1

end SiriusProxy.Master
