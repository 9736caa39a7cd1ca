import SiriusProxy.Master.Import
import SiriusProxy.Lib.Run

namespace SiriusProxy.Master
open Reads (eval)

variable {B : Type} (lib : Serde B)

structure PreparedImport where
  draft : Draft B
  source : Manifest
  index : Inventory
  complete : Complete lib draft.files draft.receipt source index

variable {lib} in
def PreparedImport.snapshot (prepared : PreparedImport lib) : String := prepared.draft.receipt.snapshot

/-- The reads of `publish`: the predecessor, which must be of the same region. -/
def publishCheck (region : Region) : Reader B (Option String) := do
  let previous ← predecessor lib
  match previous with
  | none => pure none
  | some previous =>
    let found ← snapshotRegion lib previous
    if found != region then .throw .format else pure (some previous)

/-- A snapshot on the chain as `prune_within` reads it. -/
def member (snapshot : String) (visited : List String) : Look B (Option Publication) := do
  snapshotDirectory snapshot
  publication lib snapshot visited

structure Window where
  boundary : String
  behind : Option String
  visited : List String
  deriving DecidableEq, Repr

/-- The first loop of `prune_within`; `none` is its `Ok(0)`. The first argument is `keep - kept`. -/
def window (old : Option String) : Nat → List String → Option String → Reader B (Option Window)
  | _, _, none => pure none
  | 0, _, some _ => pure none
  | remaining + 1, visited, some snapshot =>
    if visited.contains snapshot then .throw .format
    else do
      let record ← (member lib snapshot (snapshot :: visited)).zoom fun root => root.snapshots snapshot
      match record with
      | none => pure none
      | some record =>
        if remaining = 0 ∨ old = some snapshot then
          pure (some { boundary := snapshot, behind := record.previousSnapshot, visited := snapshot :: visited })
        else window old remaining (snapshot :: visited) record.previousSnapshot

/-- What the second loop does with the directory it asked for. -/
def candidateRead (next : Option String → Reader B (List String)) (snapshot : String) (visited : List String) :
    Except MasterError Unit → Reader B (List String)
  | .error .notFound => pure []
  | .error e => .throw e
  | .ok () => do
    let record ← (publication lib snapshot visited).zoom fun root => root.snapshots snapshot
    match record with
    | none => pure []
    | some record =>
      let rest ← next record.previousSnapshot
      pure (snapshot :: rest)

/-- The second loop of `prune_within`, newest first; at most 10,000 candidates. -/
def candidates : Nat → List String → Option String → Reader B (List String)
  | _, _, none => pure []
  | 0, _, some _ => .throw .limit
  | room + 1, visited, some snapshot =>
    if visited.contains snapshot then .throw .format
    else do
      let directory ← ((snapshotDirectory snapshot).zoom fun root => root.snapshots snapshot).attempt
      candidateRead lib (candidates room (snapshot :: visited)) snapshot (snapshot :: visited) directory

structure Plan where
  old : Option String
  boundary : String
  candidates : List String
  deriving DecidableEq, Repr

/-- The reads of `prune_within`. -/
def prunePlan (keep : Nat) : Reader B (Option Plan) :=
  if keep < 2 ∨ 10000 < keep then .throw .limit
  else do
    let head ← predecessor lib
    match head with
    | none => pure none
    | some head =>
      let old ← retentionBoundary lib
      let found ← window lib old keep [] (some head)
      match found with
      | none => pure none
      | some found =>
        let behind ← candidates lib 10000 found.visited found.behind
        if behind.isEmpty then pure none else pure (some { old, boundary := found.boundary, candidates := behind })

/-- Where the holder of the writer lock stands. A `publish` has read its predecessor, staged its
record, or renamed its directory into place; a pass has planned, or has written its boundary and
still has these snapshots to rename away. -/
inductive Phase where
  | idle
  | checked (prepared : PreparedImport lib) (previous : Option String) (publishedAt : Instant)
  | staged (snapshot : String) (files : String → Option (Node B))
  | installed (snapshot : String)
  | planned (keep : Nat) (plan : Plan) (removals : List String)
  | removing (keep : Nat) (old : Option String) (removals : List String)

/-- `named` lists what `CURRENT` has named, newest first. -/
structure World where
  root : Root B
  phase : Phase lib := .idle
  named : List String := []

inductive Label where
  | publish (prepared : PreparedImport lib) (publishedAt : Instant)
  | record
  | install
  | point
  | prune (keep budget : Nat)
  | bound
  | remove
  | stop

variable {lib}

/-- The directory that gets its publication record. -/
def recorded (prepared : PreparedImport lib) (previous : Option String) (publishedAt : Instant) :
    String → Option (Node B) :=
  write prepared.draft.files "publication.json" (lib.ofPublication
    { schemaVersion := 1, snapshot := prepared.snapshot, previousSnapshot := previous, publishedAt })

def Root.installed (root : Root B) (snapshot : String) (files : String → Option (Node B)) : Root B :=
  { root with snapshots := Function.update root.snapshots snapshot (some (.directory files)) }

def Root.without (root : Root B) (snapshot : String) : Root B :=
  { root with snapshots := Function.update root.snapshots snapshot none }

def World.fresh (w : World lib) (snapshot : String) : Bool :=
  (w.root.snapshots snapshot).isNone && !w.named.contains snapshot

def World.publish (w : World lib) (prepared : PreparedImport lib) (publishedAt : Instant) : World lib :=
  match eval w.root (publishCheck lib prepared.draft.receipt.region) with
  | .error _ => w
  | .ok previous => { w with phase := .checked prepared previous publishedAt }

def World.prune (w : World lib) (keep budget : Nat) : World lib :=
  match eval w.root (prunePlan lib keep) with
  | .error _ => w
  | .ok none => w
  | .ok (some plan) =>
    let removals := plan.candidates.reverse.take budget
    if plan.old = some plan.boundary then { w with phase := .removing keep plan.old removals }
    else { w with phase := .planned keep plan removals }

/-- One step of the lock holder. Renames and persists are atomic; `stop` is an error or a crash, after
which the lock is free. A new import has a name that was never used. -/
def step (w : World lib) : Label lib → Option (World lib)
  | .publish prepared publishedAt =>
    match w.phase with
    | .idle => if w.fresh prepared.snapshot then some (w.publish prepared publishedAt) else none
    | _ => none
  | .record =>
    match w.phase with
    | .checked prepared previous publishedAt =>
      some { w with phase := .staged prepared.snapshot (recorded prepared previous publishedAt) }
    | _ => none
  | .install =>
    match w.phase with
    | .staged snapshot files => some { w with root := w.root.installed snapshot files, phase := .installed snapshot }
    | _ => none
  | .point =>
    match w.phase with
    | .installed snapshot =>
      some { root := { w.root with current := some (.file (lib.ofString snapshot)) }, phase := .idle,
             named := snapshot :: w.named }
    | _ => none
  | .prune keep budget =>
    match w.phase with
    | .idle => some (w.prune keep budget)
    | _ => none
  | .bound =>
    match w.phase with
    | .planned keep plan removals =>
      some { w with
        root := { w.root with retention := some (.file (lib.ofRetention ⟨1, plan.boundary⟩)) }
        phase := .removing keep plan.old removals }
    | _ => none
  | .remove =>
    match w.phase with
    | .removing keep old (snapshot :: removals) =>
      some { w with root := w.root.without snapshot, phase := .removing keep old removals }
    | _ => none
  | .stop => some { w with phase := .idle }

end SiriusProxy.Master
