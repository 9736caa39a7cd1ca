import SiriusProxy.Client.Snapshot
import SiriusProxy.Lib.Retry
import SiriusProxy.Master.Current

namespace SiriusProxy.Master.Update
open Reads (eval)
open Commands (Prog)

structure MasterTarget where
  version : String
  resourceVersion : Option String
  root : String
  password : Option String
  deriving DecidableEq, Repr

inductive UpdateError where
  | config
  | target
  | download
  | http (status : Nat)
  | timeout
  | changed
  | master
  deriving DecidableEq, Repr

structure Network where
  connectTimeoutMs : Nat := 10000
  requestTimeoutMs : Nat := 60000
  updateTimeoutSeconds : Nat := 600
  attempts : Nat := 1
  retryDelayMs : Nat := 250
  maxRetryDelayMs : Nat := 5000
  proxyUrlEnv : Option String := none
  proxyAuthorizationEnv : Option String := none
  deriving DecidableEq, Repr

/-- `Network::master`. -/
def Network.master : Network := { attempts := 3 }

def envName (name : String) : Bool :=
  name != "" && decide (name.utf8ByteSize ≤ 256) && name.toList.all fun c => isAsciiAlphanumeric c || c == '_'

def Network.validate (network : Network) : Except UpdateError Unit :=
  if !(decide (100 ≤ network.connectTimeoutMs) && decide (network.connectTimeoutMs ≤ 300000)) ||
      !(decide (100 ≤ network.requestTimeoutMs) && decide (network.requestTimeoutMs ≤ 300000)) ||
      !(decide (1 ≤ network.updateTimeoutSeconds) && decide (network.updateTimeoutSeconds ≤ 3600)) ||
      !(decide (1 ≤ network.attempts) && decide (network.attempts ≤ 8)) ||
      !(decide (1 ≤ network.retryDelayMs) && decide (network.retryDelayMs ≤ 10000)) ||
      !(decide (network.retryDelayMs ≤ network.maxRetryDelayMs) && decide (network.maxRetryDelayMs ≤ 30000)) ||
      (network.proxyUrlEnv.isNone && network.proxyAuthorizationEnv.isSome) then .error .config
  else if (network.proxyUrlEnv.toList ++ network.proxyAuthorizationEnv.toList).all envName then .ok ()
  else .error .config

/-- The errors that an attempt may follow. -/
def UpdateError.transient : UpdateError → Bool
  | .download => true
  | .http status => status == 429 || (decide (500 ≤ status) && decide (status ≤ 599))
  | _ => false

def Network.retry (network : Network) (error : UpdateError) (attempt : Nat) : Bool :=
  decide (attempt + 1 < network.attempts) && error.transient

/-- In milliseconds; with at most 8 attempts the shift does not overflow. -/
def Network.delay (network : Network) (attempt : Nat) : Nat :=
  min (network.retryDelayMs * 2 ^ attempt) network.maxRetryDelayMs

structure Request where
  url : String
  credentials : Option (String × String)
  deriving DecidableEq, Repr

variable {B : Type}

/-- The answer of a CDN. A chunk that fails to arrive is `none`. -/
structure Response (B : Type) where
  status : Nat
  contentLength : Option Nat
  chunks : List (Option B)

/-- `Serde` with byte strings that are put together, and the document of a whole snapshot. -/
structure Formats (B : Type) extends Serde B where
  empty : B
  append : B → B → B
  ofStatus : Status → B
  status : B → Option Status
  length_empty : length empty = 0
  length_append : ∀ a b, length (append a b) = length a + length b
  status_ofStatus : ∀ s, status (ofStatus s) = some s

/-- The parts of a `MasterUpdater` and of its game client's configuration that an update reads;
`anonymous` tells whether `cdn_authorization` is `none`, and `unpack` has the decoder's key. -/
structure Updater (B : Type) where
  config : Client.Config
  anonymous : Bool
  username : Option String
  network : Network
  unpack : B → Except MasterError B

/-- What an update asks of the game, the disk and the CDN. -/
inductive Command (B : Type) where
  | lock
  | call
  | state
  | installed
  | get (request : Request)
  | sleep (milliseconds : Nat)
  | disk
  | uuid
  | publish (draft : Draft B)

abbrev Command.Answer : Command B → Type
  | .state => Client.State
  | .installed => Root B
  | .get _ => Response B
  | .uuid => Uuid
  | .publish _ => Except MasterError ImportReceipt
  | _ => Unit

abbrev Program (B α : Type) := Prog (Command.Answer (B := B)) UpdateError α

inductive Outcome where
  | unchanged (current : Status)
  | updated (receipt : ImportReceipt)
  deriving DecidableEq

def ofMaster {α : Type} (r : Except MasterError α) : Program B α := .ofExcept (r.mapError fun _ => .master)

def command (c : Command B) (e : UpdateError) : Program B c.Answer := Prog.ask c e

section Game
variable (u : Updater B)

/-- `refresh_master_target` in the state after its call. -/
def masterTarget (s : Client.State) : Option MasterTarget :=
  match s.masterPair.filter fun pair => safeVersion pair.1 with
  | none => none
  | some (version, resourceVersion) =>
    if s.observation.grpcStatus != some 0 || s.observation.maintenance then none
    else if u.anonymous then
      if !u.config.region.masterSupported || !u.config.region.isGlobal || s.cdnRoot != u.config.defaultCdnRoot ||
          (u.config.cdnCredentialEnv.lookup s.cdnRoot).isSome then none
      else some { version, resourceVersion, root := s.cdnRoot, password := none }
    else if !s.credentialValid then none
    else match u.config.cdnSecrets.lookup s.cdnRoot with
      | none => none
      | some password => some { version, resourceVersion, root := s.cdnRoot, password := some password }

/-- What the call learns is among what others do to the state. -/
def refreshMasterTarget : Program B MasterTarget := do
  command .call .target
  let state ← command .state .target
  match masterTarget u state with
  | none => .throw .target
  | some target => pure target

end Game

section Download
variable (lib : Formats B)

/-- The loop over the chunks. -/
def collect (length : B → Nat) (append : B → B → B) (limit : Nat) : List (Option B) → B → Except UpdateError B
  | [], bytes => .ok bytes
  | none :: _, _ => .error .download
  | some chunk :: rest, bytes =>
    if limit < length bytes + length chunk then .error .master else collect length append limit rest (append bytes chunk)

/-- A body of at most `limit` bytes behind a status 200. -/
def body (length : B → Nat) (append : B → B → B) (empty : B) (limit : Nat) (response : Response B) :
    Except UpdateError B :=
  if response.status != 200 then .error (.http response.status)
  else if response.contentLength.any fun n => decide (limit < n) then .error .master
  else collect length append limit response.chunks empty

def received (limit : Nat) (response : Response B) : Except UpdateError B :=
  body lib.length lib.append lib.empty limit response

def MasterTarget.url (target : MasterTarget) (name : String) : String :=
  target.root ++ "/master/" ++ target.version ++ "/" ++ name

/-- An authenticated target and an anonymous updater never go together, nor the other way round. -/
def credentials (username password : Option String) : Option (Option (String × String)) :=
  match username, password with
  | some username, some password => some (some (username, password))
  | none, none => some none
  | _, _ => none

variable (u : Updater B) (target : MasterTarget)

def downloadOnce (name : String) (limit : Nat) : Program B B :=
  match credentials u.username target.password with
  | none => .throw .target
  | some credentials => do
    let response ← command (.get ⟨target.url name, credentials⟩) .download
    .ofExcept (received lib limit response)

/-- A sleep does not fail. -/
def sleep (attempt : Nat) : Program B Unit := do
  let _ ← Prog.attempt (.sleep (u.network.delay attempt))
  pure ()

def download (name : String) (limit : Nat) : Program B B :=
  Prog.retry .download u.network.retry (sleep u) (downloadOnce lib u target name limit) u.network.attempts 0

/-- The loop of `update` over the files of the manifest. -/
def downloadAll : List Entry → (String → Option (Node B)) → Program B (String → Option (Node B))
  | [], files => pure files
  | entry :: rest, files => do
    let bytes ← download lib u target entry.name entry.size
    command .disk .master
    downloadAll rest (write files entry.name bytes)

end Download

section Program
variable (lib : Formats B) (u : Updater B)

def currentTableIntact (root : Root B) (table : String) (region : Region) (version : String) : Bool :=
  match eval root (readCurrentInner lib.toSerde lib.ofStatus (some table) (some region)) with
  | .error _ => false
  | .ok (document, indexed) => document.version == version && (indexed || lib.validJson document.bytes)

/-- The blocking part of `update` before its downloads. -/
def current (root : Root B) (target : MasterTarget) : Option Status :=
  match eval root (readCurrentIn lib.toSerde lib.ofStatus none u.config.region) with
  | .error _ => none
  | .ok document =>
    if document.version != target.version then none
    else match lib.status document.bytes with
      | none => none
      | some status =>
        if target.resourceVersion.isSome && status.resourceVersion.isNone then none
        else if status.tables.all fun table => currentTableIntact lib root table u.config.region target.version then
          some status
        else none

/-- The directory with the downloads; the output directory, the directory in it and the manifest are
three disk operations. -/
def fetchAll (target : MasterTarget) : Program B (String → Option (Node B)) := do
  let bytes ← download lib u target "MasterManifest.json" maxManifest
  let manifest ← ofMaster (Manifest.parse lib.toSerde bytes)
  if manifest.version = target.version then do
    command .disk .master
    command .disk .master
    command .disk .master
    downloadAll lib u target manifest.files (write (fun _ => none) "MasterManifest.json" bytes)
  else .throw .changed

def prepare (target : MasterTarget) (encrypted : String → Option (Node B)) : Program B (Draft B) := do
  let uuid ← command .uuid .master
  ofMaster (prepareDirectory lib.toSerde encrypted u.unpack .remote target.resourceVersion u.config.region uuid)

/-- `update` from its second look at the target. -/
def settle (target : MasterTarget) (draft : Draft B) : Program B Outcome := do
  let latest ← refreshMasterTarget u
  if latest = target then do
    let published ← command (.publish draft) .master
    let receipt ← ofMaster published
    pure (.updated receipt)
  else .throw .changed

def install (target : MasterTarget) : Program B Outcome := do
  let encrypted ← fetchAll lib u target
  let draft ← prepare lib u target encrypted
  settle u target draft

def update : Program B Outcome := do
  command .lock .master
  let target ← refreshMasterTarget u
  let root ← command .installed .master
  match current lib u root target with
  | some status => pure (.unchanged status)
  | none => install lib u target

end Program

/-- What an update has met, newest first. -/
inductive Event (B : Type) where
  | saw (s : Client.State)
  | got (request : Request) (response : Option (Response B))
  | published (snapshot : String)

/-- The output directory, the game's state, what the CDN answers to a request that it was sent so many
times before, the next UUID, the time, and where storage is about to fail. -/
structure World (B : Type) where
  root : Root B
  game : Client.State
  cdn : Request → Nat → Option (Response B)
  uuid : Uuid
  now : Instant := 0
  fault : Option Fault := none
  trace : List (Event B) := []

def Event.asks (request : Request) : Event B → Bool
  | .got other _ => decide (other = request)
  | _ => false

def World.asked (w : World B) (request : Request) : Nat := w.trace.countP (Event.asks request)

def World.met (w : World B) (event : Event B) : World B := { w with trace := event :: w.trace }

/-- What a command does. -/
def effect (lib : Serde B) (w : World B) : (c : Command B) → Option c.Answer × World B
  | .lock => (some (), w)
  | .call => (some (), w)
  | .state => (some w.game, w.met (.saw w.game))
  | .installed => (some w.root, w)
  | .get request =>
    let response := w.cdn request (w.asked request)
    (response, w.met (.got request response))
  | .sleep _ => (some (), w)
  | .disk => (some (), w)
  | .uuid => (some w.uuid, w)
  | .publish draft =>
    let (published, after) := Master.publish lib draft w.root w.now w.fault
    (some published, { w.met (.published draft.receipt.snapshot) with root := after })

/-- The lock keeps other writers out, and the trace is the update's own. -/
structure Elsewhere (w x : World B) : Prop where
  root : x.root = w.root
  trace : x.trace = w.trace

end SiriusProxy.Master.Update
