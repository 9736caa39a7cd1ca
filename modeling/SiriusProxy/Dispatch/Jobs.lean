import SiriusProxy.Outbox.Types

namespace SiriusProxy.Jobs
open Outbox (Library)

inductive Error where
  | config
  | transport
  | status (code : Nat)
  | protocol
  deriving DecidableEq, Repr

variable {L : Library}

/-- What came back over HTTP. The body may break off after the listed chunks. -/
structure Response (L : Library) where
  status : Nat
  contentLength : Option Nat := none
  chunks : List L.Bytes := []
  broken : Bool := false

/-- The end of one transmission: no response, or one. -/
inductive Answer (L : Library) where
  | unreachable
  | response (r : Response L)

/-- The HTTP status the updater definitely answered with. -/
def Answer.status : Answer L → Option Nat
  | .unreachable => none
  | .response r => some r.status

def validateRequest (request : Request) : Bool :=
  request.region != .cn && request.profile != "" && decide (request.profile.utf8ByteSize ≤ 64) &&
    request.profile.toList.all fun c => isAsciiAlphanumeric c || c == '-' || c == '_'

/-- The header form of an idempotency key. -/
def headerKey (key : String) : Bool :=
  key != "" && decide (key.utf8ByteSize ≤ 128) && key.toList.all fun c => isComponentChar c || c == ':'

def limit : Nat := 65536

/-- Chunks are collected up to the limit. -/
def readBody (broken : Bool) : List L.Bytes → List L.Bytes → Nat → Except Error (List L.Bytes)
  | [], body, _ => if broken then .error .transport else .ok body
  | chunk :: rest, body, total =>
    if limit - total < L.size chunk then .error .protocol
    else readBody broken rest (body ++ [chunk]) (total + L.size chunk)

def outcomeAccepted (L : Library) (request : Request) (o : Outcome) : Bool :=
  o.verification.region == request.region && o.verification.catalogVerified &&
    (o.verification.platform == "iOS" || o.verification.platform == "Android") &&
    component o.verification.environment && component o.verification.resourceVersion &&
    component o.verification.platformHash && digest o.verification.catalogSha256 &&
    o.publicationId.all (fun id => (L.uuidText id).isSome) &&
    !(o.publicationId.isSome && o.exported.isNone)

/-- Any spelling of a UUID is accepted here. -/
def jobAccepted (L : Library) (request : Request) (job : Job) : Bool :=
  job.request == request && (L.uuidText job.id).isSome &&
    !(job.status != .completed && job.outcome.isSome) && job.outcome.all (outcomeAccepted L request)

def send (expected : Nat) (request : Request) : Answer L → Except Error Job
  | .unreachable => .error .transport
  | .response r =>
    if r.status ≠ expected then .error (.status r.status)
    else if r.contentLength.any (limit < ·) then .error .protocol
    else match readBody r.broken r.chunks [] 0 with
      | .error e => .error e
      | .ok body => match L.parseJob body with
        | none => .error .protocol
        | some job => if jobAccepted L request job then .ok job else .error .protocol

/-- Whether a submission passes the checks made before anything is sent. -/
def sendable (request : Request) (key : String) : Bool := validateRequest request && headerKey key

def submit (request : Request) (key : String) (answer : Answer L) : Except Error Job :=
  if ¬ sendable request key then .error .config
  else match send 202 request answer with
    | .error e => .error e
    | .ok job => if job.idempotencySha256 = some (L.keyDigest key) then .ok job else .error .protocol

def get (id : String) (request : Request) (answer : Answer L) : Except Error Job :=
  if ¬ validateRequest request ∨ L.uuidText id ≠ some id then .error .config
  else match send 200 request answer with
    | .error e => .error e
    | .ok job => if job.id = id then .ok job else .error .protocol

theorem readBody_error {broken : Bool} {chunks body : List L.Bytes} {total : Nat} {e : Error}
    (failed : readBody broken chunks body total = .error e) : e = .transport ∨ e = .protocol := by
  induction chunks generalizing body total with
  | nil =>
    cases broken <;> cases failed
    exact Or.inl rfl
  | cons chunk rest ih =>
    simp only [readBody] at failed
    split at failed
    · cases failed
      exact Or.inr rfl
    · exact ih failed

/-- A status error is the status of the answer. -/
theorem send_status {expected code : Nat} {request : Request} {answer : Answer L}
    (failed : send expected request answer = .error (.status code)) : answer.status = some code := by
  cases answer with
  | unreachable => cases failed
  | response r =>
    simp only [send] at failed
    split at failed
    · cases failed
      rfl
    split at failed
    · cases failed
    split at failed
    · rename_i e body
      cases failed
      rcases readBody_error body with never | never <;> cases never
    split at failed
    · cases failed
    · split at failed <;> cases failed

theorem send_ok {expected : Nat} {request : Request} {answer : Answer L} {job : Job}
    (done : send expected request answer = .ok job) : jobAccepted L request job := by
  cases answer with
  | unreachable => cases done
  | response r =>
    simp only [send] at done
    split at done
    · cases done
    split at done
    · cases done
    split at done
    · cases done
    split at done
    · cases done
    split at done
    · rename_i accepted
      cases done
      exact accepted
    · cases done

theorem submit_status {code : Nat} {request : Request} {key : String} {answer : Answer L}
    (failed : submit request key answer = .error (.status code)) : answer.status = some code := by
  simp only [submit] at failed
  split at failed
  · cases failed
  split at failed
  · rename_i e sent
    cases failed
    exact send_status sent
  · split at failed <;> cases failed

theorem submit_ok {request : Request} {key : String} {answer : Answer L} {job : Job}
    (done : submit request key answer = .ok job) :
    jobAccepted L request job ∧ job.idempotencySha256 = some (L.keyDigest key) := by
  simp only [submit] at done
  split at done
  · cases done
  split at done
  · cases done
  · rename_i job sent
    split at done
    · rename_i same
      cases done
      exact ⟨send_ok sent, same⟩
    · cases done

theorem get_ok {request : Request} {id : String} {answer : Answer L} {job : Job}
    (done : get id request answer = .ok job) : jobAccepted L request job ∧ job.id = id := by
  simp only [get] at done
  split at done
  · cases done
  split at done
  · cases done
  · rename_i job sent
    split at done
    · rename_i same
      cases done
      exact ⟨send_ok sent, same⟩
    · cases done

end SiriusProxy.Jobs
