import SiriusProxy.Outbox.Store
import SiriusProxy.Dispatch.Jobs

namespace SiriusProxy.Dispatch
open Effect Outbox

/-- A configured updater. The destination is named by the digest of its origin. -/
structure Remote where
  digest : String
  profile : String
  profileRevision : String
  requireFullCatalog : Bool
  requireFullExport : Bool
  requirePublication : Bool
  deriving DecidableEq, Repr

structure Config where
  capacity : Nat
  region : Region
  environment : String
  platform : String
  remotes : List Remote
  deriving DecidableEq, Repr

/-- The parts of a resource snapshot that observation reads. -/
structure ResourceSnapshot where
  region : Region
  environment : String
  platform : String
  resourceVersion : String
  platformHash : String
  deriving DecidableEq, Repr

def identity (remote : Remote) (snapshot : ResourceSnapshot) : Identity where
  destinationSha256 := remote.digest
  request := { region := snapshot.region, profile := remote.profile, operation := .update }
  profileRevision := remote.profileRevision
  environment := snapshot.environment
  platform := snapshot.platform
  resourceVersion := snapshot.resourceVersion
  platformHash := snapshot.platformHash
  requireFullCatalog := remote.requireFullCatalog
  requireFullExport := remote.requireFullExport
  requirePublication := remote.requirePublication

/-- What becomes of one request: it ends in an answer, or the future is dropped or the process
dies while it is awaited. -/
inductive Network (L : Library) where
  | answer (a : Jobs.Answer L)
  | cancelled
  | crashed

structure Worker (L : Library) where
  store : Store L := {}
  /-- Busy answers for an entry since this process started. -/
  refusals : String → Nat := fun _ => 0
  transportErrors : Nat := 0

variable {L : Library}

abbrev Work (L : Library) (α : Type) : Type := Prog (Worker L) Stop α

def onStore {α : Type} (m : Op L α) : Work L α := Prog.zoom Worker.store (fun w s => { w with store := s }) m

def maxRefusals : Nat := 10

/-- Terminal classification of a submission answered with a definite status. -/
def rejectedSubmission (status : Nat) : Option String :=
  if status ∈ [400, 404, 405, 413, 415, 422] then some "submission_rejected"
  else if status ∈ [401, 403] then some "submission_unauthorized"
  else if status = 409 then some "idempotency_conflict"
  else none

def matchesOutcome (identity : Identity) (o : Jobs.Outcome) : Bool :=
  o.verification.region == identity.request.region && o.verification.environment == identity.environment &&
    o.verification.platform == identity.platform &&
    o.verification.resourceVersion == identity.resourceVersion &&
    o.verification.platformHash == identity.platformHash && o.verification.catalogVerified &&
    (!identity.requireFullCatalog || o.verification.fullCatalog) &&
    (!identity.requireFullExport ||
      o.exported.any fun e => e.fullExport && (e.retained || o.publicationId.isSome)) &&
    (!identity.requirePublication || o.publicationId.isSome)

def forgetRefusals (key : String) : Work L PUnit :=
  Prog.modify fun w => { w with refusals := fun k => if k = key then 0 else w.refusals k }

/-- `Worker::fail`. -/
def failEntry (key code : String) : Work L PUnit := do
  onStore (Outbox.fail key code)
  forgetRefusals key

def transportWarning : Work L PUnit :=
  Prog.modify fun w => { w with transportErrors := w.transportErrors + 1 }

/-- One POST. A submission that passes the local checks counts as sent, with the status of its
answer if there was one. -/
def post (request : Jobs.Request) (key : String) (network : Network L) :
    Work L (Except Jobs.Error Jobs.Job) := do
  let note (status : Option Nat) : Work L PUnit :=
    onStore (Prog.modify fun s => { s with log := .posted key status :: s.log })
  if ¬ Jobs.sendable request key then pure (.error .config)
  else match network with
    | .answer a => do
      note a.status
      pure (Jobs.submit request key a)
    | .cancelled => do
      note none
      Prog.throw .cancelled
    | .crashed => do
      note none
      Prog.throw .crashed

/-- One GET. -/
def poll (jobId : String) (request : Jobs.Request) : Network L → Work L (Except Jobs.Error Jobs.Job)
  | .answer a => pure (Jobs.get jobId request a)
  | .cancelled => Prog.throw .cancelled
  | .crashed => Prog.throw .crashed

def countRefusal (key : String) : Work L PUnit :=
  Prog.modify fun w => { w with refusals := fun k => if k = key then w.refusals k + 1 else w.refusals k }

/-- A busy answer guarantees that nothing was accepted. -/
def busy (key : String) : Work L PUnit := do
  countRefusal key
  let w ← Prog.get
  if maxRefusals ≤ w.refusals key then
    forgetRefusals key
    failEntry key "submission_refused"
  else onStore (Outbox.refused key)

def settleStatus (key : String) (entry : Entry) (job : Jobs.Job) : Work L PUnit :=
  match job.status with
  | .failed => failEntry key "job_failed"
  | .cancelled => failEntry key "job_cancelled"
  | .completed => match job.outcome.filter (matchesOutcome entry.identity) with
    | some outcome => onStore (complete key job.id outcome.verification.catalogSha256 outcome.publicationId)
    | none => failEntry key "outcome_mismatch"
  | _ => pure ⟨⟩

def settleJob (key : String) (entry : Entry) (pending : Bool) (job : Jobs.Job) : Work L PUnit := do
  if job.idempotencySha256 ≠ some (L.keyDigest key) then failEntry key "job_identity_mismatch"
  else
    if pending then
      onStore (acknowledge key job.id)
      forgetRefusals key
    settleStatus key entry job

def settleError (key : String) (entry : Entry) (pending : Bool) : Jobs.Error → Work L PUnit
  | .status code =>
    match entry.state, code with
    | .submitted _, 404 => failEntry key "job_pruned"
    | _, _ =>
      if pending then
        if code = 429 ∨ code = 503 then busy key
        else match rejectedSubmission code with
          | some reason => do
            forgetRefusals key
            failEntry key reason
          | none => transportWarning
      else transportWarning
  | .config => if pending then failEntry key "asset_dispatch_request_invalid" else transportWarning
  | .protocol => failEntry key "invalid_job_response"
  | .transport => transportWarning

def settle (key : String) (entry : Entry) (pending : Bool) : Except Jobs.Error Jobs.Job → Work L PUnit
  | .ok job => settleJob key entry pending job
  | .error e => settleError key entry pending e

def Config.remote (config : Config) (entry : Entry) : Option Remote :=
  config.remotes.find? fun r =>
    r.digest == entry.identity.destinationSha256 && r.profile == entry.identity.request.profile

/-- One turn of the loop of `reconcile_batch`, with the network's answer for each key. -/
def reconcileEntry (config : Config) (now : Instant) (network : String → Network L) (item : String × Entry) :
    Work L PUnit :=
  match config.remote item.2 with
  | none => failEntry item.1 "target_removed"
  | some _ => match item.2.state with
    | .pending => do
      onStore (beginSend item.1 now)
      let result ← post item.2.identity.request item.1 (network item.1)
      settle item.1 item.2 true result
    | .sending _ => failEntry item.1 "submission_ambiguous"
    | .submitted jobId => do
      let result ← poll jobId item.2.identity.request (network item.1)
      settle item.1 item.2 false result
    | _ => pure ⟨⟩

def reconcileBatch (config : Config) (now : Instant) (network : String → Network L) : Work L PUnit := do
  let entries ← onStore (nextBatch 16)
  Prog.each (reconcileEntry config now network) entries

def reconcile (config : Config) (now : Instant) (network : String → Network L) : Work L PUnit := do
  Prog.modify fun w => { w with transportErrors := 0 }
  reconcileBatch config now network

/-- `Worker::observe`: one identity for each configured updater. -/
def observeSnapshot (config : Config) (snapshot : ResourceSnapshot) : Work L PUnit := do
  if snapshot.region ≠ config.region ∨ snapshot.environment ≠ config.environment ∨
      snapshot.platform ≠ config.platform then
    Prog.throw (.error .invalid)
  Prog.each (fun remote => do let _ ← onStore (observe (identity remote snapshot))) config.remotes

/-- The part of `Worker::new` that touches the outbox. -/
def startWorker (config : Config) : Work L PUnit := do
  onStore (openOutbox config.capacity)
  let w ← Prog.get
  if w.store.ledger.entries.toList.any fun (_, entry) =>
      entry.identity.request.region != config.region || entry.identity.environment != config.environment ||
        entry.identity.platform != config.platform then
    Prog.throw (.error .invalid)
  Prog.modify fun w => { w with refusals := fun _ => 0, transportErrors := 0 }

end SiriusProxy.Dispatch
