import SiriusProxy.Master.Chain

namespace SiriusProxy.Master
open Reads (eval)

variable {B : Type} (lib : Serde B)

/-- `Ok(false)` is a snapshot without an index. -/
def verifyIndexedDigest (source : Manifest) (table : String) (size : Nat) (sha256 : String) : Look B Bool :=
  .look (Place.at "tables.json") fun
    | none => pure false
    | some _ => do
      let bytes ← regular lib (Place.at "tables.json") maxIndex
      match lib.inventory bytes with
      | none => .throw .format
      | some index => do
        .done (index.validate source)
        match index.files.find? fun e => e.name == table ++ ".json" with
        | none => .throw .format
        | some entry => if entry.size != size || entry.sha256 != sha256 then .throw .integrity else pure true

def tableRead (region : Region) (snapshot table expectedHash : String) (validateIndexed : Bool) : Look B (Document B) :=
  if !safeComponent table || !hashValid expectedHash then .throw .notFound
  else do
    snapshotDirectory snapshot
    let p ← sourceWithProvenance lib snapshot
    if p.region != region then .throw .format
    else if !p.source.files.any (fun entry => entry.name == table ++ ".bin") then .throw .notFound
    else do
      let bytes ← regular lib (Place.at (table ++ ".json")) maxJson
      if digest lib bytes != expectedHash then .throw .integrity
      else do
        let indexed ← verifyIndexedDigest lib p.source table (lib.length bytes) expectedHash
        if (validateIndexed || !indexed) && !lib.validJson bytes then .throw .format
        else pure { bytes, etag := "\"" ++ expectedHash ++ "\"", version := p.source.version }

def table (root : Root B) (region : Region) (snapshot table expectedHash : String) : Except MasterError (Document B) :=
  eval (root.snapshots snapshot) (tableRead lib region snapshot table expectedHash true)

def tableIntact (root : Root B) (region : Region) (snapshot table expectedHash : String) : Bool :=
  (eval (root.snapshots snapshot) (tableRead lib region snapshot table expectedHash false)).isOk

/-- `trim_end_matches(".json")` on the reversed characters. -/
def trimJson : List Char → List Char
  | 'n' :: 'o' :: 's' :: 'j' :: '.' :: rest => trimJson rest
  | cs => cs

def tableName (name : String) : String := String.ofList (trimJson name.toList.reverse).reverse

inductive SyncError where
  | download
  | timeout
  | integrity
  | changed
  | storage
  deriving DecidableEq, Repr

/-- An answer to a request: whether status and content type are right, the announced length, and the
body unless the transfer breaks off. -/
structure Response (B : Type) where
  accepted : Bool
  announced : Option Nat
  body : Option B

def download (response : Option (Response B)) (limit : Nat) : Except SyncError B :=
  match response with
  | none => .error .download
  | some response =>
    if !response.accepted || response.announced.any (fun n => decide (limit < n)) then .error .download
    else match response.body with
      | none => .error .download
      | some bytes => if limit < lib.length bytes then .error .integrity else .ok bytes

/-- What the owner answers during one update: two requests for its manifest, and its tables. -/
structure Owner (B : Type) where
  manifest : Option (Response B)
  latest : Option (Response B)
  table : String → String → String → Option (Response B)

/-- `Syncer::manifest`. -/
def syncManifest (scope : Scope) (response : Option (Response B)) : Except SyncError PublishedManifest :=
  match download lib response (4 * 1024 * 1024) with
  | .error e => .error e
  | .ok bytes =>
    match lib.published bytes with
    | none => .error .integrity
    | some value =>
      match value.validate lib scope with
      | .error _ => .error .integrity
      | .ok () => .ok value

/-- The consumer's own manifest, if it has one. -/
def ownManifest (scope : Scope) (root : Root B) : Option PublishedManifest :=
  match eval root (manifest lib none scope) with
  | .error _ => none
  | .ok document => lib.published document.bytes

def unchanged (scope : Scope) (root : Root B) (target : PublishedManifest) (current : Option PublishedManifest) : Bool :=
  current.any fun current =>
    current.contentSha256 == target.contentSha256 && current.resourceVersion == target.resourceVersion &&
      current.files.all fun f => tableIntact lib root scope.region current.snapshot (tableName f.name) f.sha256

structure Transfer (B : Type) where
  files : String → Option (Node B) := fun _ => none
  downloaded : Nat := 0
  reused : Nat := 0

/-- A table that the consumer already has. -/
def cached (scope : Scope) (root : Root B) (current : Option PublishedManifest) (f : File) : Option B :=
  match current with
  | none => none
  | some current =>
    if !current.files.any (· == f) then none
    else match table lib root scope.region current.snapshot (tableName f.name) f.sha256 with
      | .error _ => none
      | .ok document => some document.bytes

def fetch (scope : Scope) (root : Root B) (owner : Owner B) (target : PublishedManifest)
    (current : Option PublishedManifest) (f : File) (transfer : Transfer B) : Except SyncError (B × Transfer B) :=
  match cached lib scope root current f with
  | some bytes => .ok (bytes, { transfer with reused := transfer.reused + 1 })
  | none =>
    match download lib (owner.table target.snapshot (tableName f.name) f.sha256) f.size with
    | .error e => .error e
    | .ok bytes => .ok (bytes, { transfer with downloaded := transfer.downloaded + 1 })

/-- The loop of `update` over the target's files. -/
def transferAll (scope : Scope) (root : Root B) (owner : Owner B) (target : PublishedManifest)
    (current : Option PublishedManifest) : List File → Transfer B → Except SyncError (Transfer B)
  | [], transfer => .ok transfer
  | f :: rest, transfer =>
    match fetch lib scope root owner target current f transfer with
    | .error e => .error e
    | .ok (bytes, transfer) =>
      if lib.length bytes != f.size || digest lib bytes != f.sha256 then .error .integrity
      else transferAll scope root owner target current rest { transfer with files := write transfer.files f.name bytes }

/-- Where storage fails: at the lock, in staging, or in `publish` before its record, its rename, its
pointer, or the last sync. -/
inductive Fault where
  | lock
  | staging
  | record
  | install
  | point
  | sync
  deriving DecidableEq, Repr

/-- `PreparedImport::publish` in one go, with what it leaves behind when storage fails. -/
def publish (draft : Draft B) (root : Root B) (publishedAt : Instant) (fault : Option Fault) :
    Except MasterError ImportReceipt × Root B :=
  let snapshot := draft.receipt.snapshot
  match eval root (publishCheck lib draft.receipt.region) with
  | .error e => (.error e, root)
  | .ok previous =>
    let files := write draft.files "publication.json"
      (lib.ofPublication { schemaVersion := 1, snapshot, previousSnapshot := previous, publishedAt })
    let installed := root.installed snapshot files
    let pointed := { installed with current := some (.file (lib.ofString snapshot)) }
    if fault = some .record ∨ fault = some .install ∨ (root.snapshots snapshot).isSome then (.error (.io false), root)
    else if fault = some .point then (.error (.io false), installed)
    else if fault = some .sync then (.error (.io false), pointed)
    else (.ok draft.receipt, pointed)

inductive Outcome where
  | unchanged (contentSha256 : String)
  | updated (receipt : ImportReceipt) (contentSha256 : String) (downloaded reused : Nat)
  deriving DecidableEq

/-- What `update` has before it publishes. -/
inductive Ready (B : Type) where
  | unchanged (target : PublishedManifest)
  | prepared (target : PublishedManifest) (draft : Draft B) (transfer : Transfer B)

/-- `update` from the owner's second answer to `publish`. -/
def confirm (scope : Scope) (owner : Owner B) (target : PublishedManifest) (late : Bool) : Except SyncError Unit :=
  match syncManifest lib scope owner.latest with
  | .error e => .error e
  | .ok latest =>
    if latest.contentSha256 != target.contentSha256 then .error .changed
    else if late then .error .timeout
    else .ok ()

/-- `update` up to `publish`. -/
def readyUpdate (scope : Scope) (owner : Owner B) (root : Root B) (uuid : Uuid) (late : Bool) (fault : Option Fault) :
    Except SyncError (Ready B) :=
  if fault = some .lock then .error .storage
  else match syncManifest lib scope owner.manifest with
    | .error e => .error e
    | .ok target =>
      if unchanged lib scope root target (ownManifest lib scope root) then .ok (.unchanged target)
      else if fault = some .staging then .error .storage
      else match transferAll lib scope root owner target (ownManifest lib scope root) target.files {} with
        | .error e => .error e
        | .ok transfer =>
          match prepareRegistry lib transfer.files target uuid with
          | .error _ => .error .storage
          | .ok draft =>
            match confirm lib scope owner target late with
            | .error e => .error e
            | .ok () => .ok (.prepared target draft transfer)

/-- `Syncer::update`: its result and the output directory after it. -/
def update (scope : Scope) (owner : Owner B) (root : Root B) (uuid : Uuid) (publishedAt : Instant) (late : Bool)
    (fault : Option Fault) : Except SyncError Outcome × Root B :=
  match readyUpdate lib scope owner root uuid late fault with
  | .error e => (.error e, root)
  | .ok (.unchanged target) => (.ok (.unchanged target.contentSha256), root)
  | .ok (.prepared target draft transfer) =>
    match publish lib draft root publishedAt fault with
    | (.error _, after) => (.error .storage, after)
    | (.ok receipt, after) =>
      (.ok (.updated receipt target.contentSha256 transfer.downloaded transfer.reused), after)

variable {lib} {root after : Root B} {scope : Scope} {files : String → Option (Node B)} {receipt : ImportReceipt}
  {source : Manifest} {index : Inventory} {draft : Draft B}

/-- The document of a snapshot that is there and complete. -/
theorem Complete.eval_pinned (complete : Complete lib files receipt source index)
    (there : root.snapshots receipt.snapshot = some (.directory files)) (valid : scope.valid = true)
    (region : scope.region = receipt.region) :
    eval root (Master.manifest lib (some receipt.snapshot) scope) =
      .ok (document lib (Complete.published lib scope receipt source index)) := by
  have read := complete.eval_manifest valid region
  simp only [manifestIn, valid, Bool.not_true, Bool.false_eq_true, if_false] at read
  simp only [Master.manifest, valid, Bool.not_true, Bool.false_eq_true, if_false]
  rw [Reads.eval_bind_ok (Reads.eval_pure _), Reads.eval_zoom, there]
  exact read

theorem Complete.eval_current (complete : Complete lib files receipt source index)
    (there : root.snapshots receipt.snapshot = some (.directory files))
    (pointer : root.current = some (.file (lib.ofString receipt.snapshot))) (valid : scope.valid = true)
    (region : scope.region = receipt.region) :
    eval root (Master.manifest lib none scope) =
      .ok (document lib (Complete.published lib scope receipt source index)) := by
  have pinned := complete.eval_pinned there valid region
  have current : eval root (currentSnapshot lib) = .ok receipt.snapshot := by
    unfold currentSnapshot
    rw [Reads.eval_bind_ok (eval_regular Root.current pointer (length_pointer complete.named)), lib.utf8_ofString]
    simp only
    rw [Reads.eval_bind_ok (eval_zoom_directory there complete.named)]
    rfl
  simp only [Master.manifest, valid, Bool.not_true, Bool.false_eq_true, if_false] at pinned ⊢
  rw [Reads.eval_bind_ok (Reads.eval_pure _)] at pinned
  rw [Reads.eval_bind_ok current]
  exact pinned

/-- A published draft is there, and `CURRENT` names it. -/
theorem publish_ok {publishedAt : Instant} {fault : Option Fault}
    (done : publish lib draft root publishedAt fault = (.ok receipt, after)) :
    receipt = draft.receipt ∧ root.snapshots receipt.snapshot = none ∧
      ∃ previous, eval root (publishCheck lib receipt.region) = .ok previous ∧
      after = { root.installed receipt.snapshot (write draft.files "publication.json"
          (lib.ofPublication ⟨1, receipt.snapshot, previous, publishedAt⟩)) with
        current := some (.file (lib.ofString receipt.snapshot)) } := by
  simp only [publish] at done
  split at done
  · cases done
  · rename_i previous checked
    split at done
    · cases done
    · rename_i stopped
      rw [not_or, not_or] at stopped
      split at done
      · cases done
      · split at done
        · cases done
        · cases done
          exact ⟨rfl, by simpa using stopped.2.2, previous, checked, rfl⟩

theorem publish_complete {publishedAt : Instant} {fault : Option Fault}
    (complete : Complete lib draft.files draft.receipt source index)
    (done : publish lib draft root publishedAt fault = (.ok receipt, after)) (valid : scope.valid = true)
    (region : scope.region = receipt.region) :
    eval after (manifest lib (some receipt.snapshot) scope) =
        .ok (document lib (Complete.published lib scope receipt source index)) ∧
      eval after (manifest lib none scope) = .ok (document lib (Complete.published lib scope receipt source index)) ∧
      (Complete.published lib scope receipt source index).validate lib scope = .ok () := by
  obtain ⟨rfl, -, previous, -, rfl⟩ := publish_ok done
  have complete := complete.write_publication (lib.ofPublication ⟨1, draft.receipt.snapshot, previous, publishedAt⟩)
  refine ⟨complete.eval_pinned ?_ valid region, complete.eval_current ?_ rfl valid region, complete.validate region⟩
  · exact Function.update_self ..
  · exact Function.update_self ..

/-- A `publish` that ends well is the four steps of the store. -/
theorem publish_exec (prepared : PreparedImport lib) {w : World lib} {publishedAt : Instant} {fault : Option Fault}
    (idle : w.phase = .idle) (fresh : w.fresh prepared.snapshot = true)
    (done : publish lib prepared.draft w.root publishedAt fault = (.ok receipt, after)) :
    Run.exec step w [.publish prepared publishedAt, .record, .install, .point] =
      some { root := after, phase := .idle, named := prepared.snapshot :: w.named } := by
  obtain ⟨rfl, -, previous, checked, rfl⟩ := publish_ok done
  have first : step w (.publish prepared publishedAt) =
      some { w with phase := .checked prepared previous publishedAt } := by
    simp only [step, idle, fresh, if_true, World.publish, checked]
  rw [Run.exec, first]
  rfl

end SiriusProxy.Master
