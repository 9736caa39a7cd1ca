import Std.Data.TreeMap
import SiriusProxy.Region

namespace SiriusProxy

namespace Jobs

inductive Operation where
  | update
  | export_
  | verify
  deriving DecidableEq, Repr

structure Request where
  region : Region
  profile : String
  operation : Operation
  deriving DecidableEq, Repr

inductive Status where
  | queued
  | running
  | cancelling
  | completed
  | failed
  | cancelled
  deriving DecidableEq, Repr

structure Verification where
  region : Region
  platform : String
  environment : String
  resourceVersion : String
  platformHash : String
  catalogSha256 : String
  fullCatalog : Bool
  catalogVerified : Bool
  deriving DecidableEq, Repr

structure Export where
  fullExport : Bool
  retained : Bool
  files : Nat
  bytes : Nat
  deriving DecidableEq, Repr

structure Outcome where
  verification : Verification
  exported : Option Export
  publicationId : Option String
  deriving DecidableEq, Repr

structure Job where
  id : String
  request : Request
  status : Status
  idempotencySha256 : Option String
  outcome : Option Outcome
  deriving DecidableEq, Repr

end Jobs

namespace Outbox

inductive Error where
  | invalid
  | locked
  | storage
  | full
  deriving DecidableEq, Repr

structure Identity where
  destinationSha256 : String
  request : Jobs.Request
  profileRevision : String
  environment : String
  platform : String
  resourceVersion : String
  platformHash : String
  requireFullCatalog : Bool
  requireFullExport : Bool
  requirePublication : Bool
  deriving DecidableEq, Repr

inductive State where
  | pending
  | sending (firstAttemptAt : Instant)
  | submitted (jobId : String)
  | completed (jobId catalogSha256 : String) (publicationId : Option String)
  | failed (jobId : Option String) (code : String)
  deriving DecidableEq, Repr

structure Entry where
  identity : Identity
  state : State
  deriving DecidableEq, Repr

structure Ledger where
  schemaVersion : Nat := 1
  reconciliationCursor : Option String := none
  entries : Std.TreeMap String Entry := ∅

/-- What the outbox uses of other crates: SHA-256, UUID parsing and printing, and JSON. JSON
gives back what it wrote. -/
structure Library where
  Bytes : Type
  size : Bytes → Nat
  /-- Hexadecimal SHA-256 of the JSON of `(1, identity)`. -/
  identityDigest : Identity → String
  /-- Hexadecimal SHA-256 of a dispatch key. -/
  keyDigest : String → String
  /-- `Uuid::parse_str(v).map(|id| id.to_string())`. -/
  uuidText : String → Option String
  encodeLedger : Ledger → Bytes
  decodeLedger : Bytes → Option Ledger
  encodeEntry : Entry → Bytes
  decodeEntry : Bytes → Option Entry
  /-- Reads the concatenation of the received body chunks as a job. -/
  parseJob : List Bytes → Option Jobs.Job
  decodeLedger_encodeLedger : ∀ ledger, decodeLedger (encodeLedger ledger) = some ledger
  decodeEntry_encodeEntry : ∀ entry, decodeEntry (encodeEntry entry) = some entry

variable (L : Library)

/-- Only the canonical spelling of a UUID is accepted. -/
def uuid (v : String) : Bool := L.uuidText v == some v

def validCode (code : String) : Bool :=
  code != "" && decide (code.utf8ByteSize ≤ 64) && code.toList.all fun c => isAsciiLower c || c == '_'

def validState : State → Bool
  | .pending => true
  | .sending _ => true
  | .submitted jobId => uuid L jobId
  | .completed jobId catalogSha256 publicationId =>
    uuid L jobId && digest catalogSha256 && publicationId.all (uuid L)
  | .failed jobId code => jobId.all (uuid L) && validCode code

def validKey (key : String) : Bool :=
  decide (key.utf8ByteSize = 71) && startsWith key "sirius-" &&
    digest (String.ofList (key.toList.drop 7))

/-- The bounds every identity component must meet before it is hashed. -/
def Identity.wellFormed (i : Identity) : Bool :=
  digest i.destinationSha256 && i.request.region != .cn && decide (i.request.profile.utf8ByteSize ≤ 64) &&
    component i.request.profile && !i.request.profile.toList.contains '.' &&
    component i.profileRevision && component i.environment && component i.resourceVersion &&
    component i.platformHash && (i.platform == "iOS" || i.platform == "Android")

def Identity.key (i : Identity) : Except Error String :=
  if i.wellFormed then .ok ("sirius-" ++ L.identityDigest i) else .error .invalid

def State.terminal : State → Bool
  | .completed .. => true
  | .failed .. => true
  | _ => false

end Outbox

end SiriusProxy
