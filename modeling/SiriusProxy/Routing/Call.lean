import SiriusProxy.Lib.Effect
import SiriusProxy.Region

open Effect

namespace SiriusProxy.Routing

inductive Route where
  | version
  | announcements
  | announcement
  | profile
  | eventRanking
  | eventDeck
  | musicRanking
  | challengeRanking
  | whoami
  | playerData
  | serverList
  | playerLogin
  deriving DecidableEq, Repr

def Route.authenticated : Route → Bool
  | .profile | .eventRanking | .eventDeck | .musicRanking | .challengeRanking | .whoami | .playerData => true
  | _ => false

def routes : List Route :=
  [.version, .announcements, .announcement, .profile, .eventRanking, .eventDeck, .musicRanking,
    .challengeRanking, .whoami, .playerData]

def globalRoutes : List Route :=
  [.version, .serverList, .announcements, .announcement, .profile, .eventRanking, .eventDeck, .musicRanking,
    .challengeRanking, .playerData]

/-- Routes the proxy exposes for a protocol family. -/
def forFamily (global : Bool) : List Route := if global then globalRoutes else routes

/-- What a node sends: an RPC to the game, a background refresh of a stale cache entry (an ordinary
call of its own), or the SDK's `cache.login`. -/
inductive Event where
  | sent (route : Route)
  | refreshing (route : Route)
  | cacheLogin
  deriving DecidableEq, Repr

/-- Whether the event is, or leads to, an authenticated game RPC. -/
def Event.dispatches : Event → Bool
  | .sent route => route.authenticated
  | .refreshing route => route.authenticated
  | .cacheLogin => false

/-- A part of a call: it notes what the node sent, oldest first. -/
abbrev Call (α : Type) : Type := Prog (List Event) AppError α

def emit (e : Event) : Call PUnit := Prog.modify fun trace => trace ++ [e]

/-- `timeout_at`: the deadline may cut the future at any point, here after `n` of its events. -/
def timeoutAt {α : Type} (cut : Option Nat) (m : Call α) : Call α := fun trace =>
  match cut with
  | none => m trace
  | some n => (.error .timeout, (m trace).2.take (trace.length + n))

section Execute
variable {V : Type}

inductive EncodeError where
  | invalidRequest
  | protocolDefinition

def EncodeError.error : EncodeError → AppError
  | .invalidRequest => .invalidRequest
  | .protocolDefinition => .protocolDefinition

inductive DecodeError where
  | protocol
  | protocolDefinition

def DecodeError.error : DecodeError → AppError
  | .protocol => .protocol
  | .protocolDefinition => .protocolDefinition

/-- A response that was read to its end. `accepted` is the route's own check of the value (the
player of Whoami, the version text of Version). -/
structure Answer (V : Type) where
  httpOk : Bool
  contentOk : Bool
  status : Option Nat
  code : Option String
  identityEncoding : Bool
  framed : Bool
  decoded : Except DecodeError V
  accepted : Bool

inductive Response (V : Type) where
  | failed (proxyRejected : Bool)
  | broken
  | tooLarge
  | answer (a : Answer V)

/-- What happens to one `execute_once`: the checks before anything is sent, and the response.
`maintenance` is the observation after it. -/
structure Transfer (V : Type) where
  inTime : Bool
  encoding : Option EncodeError
  bid : Bool
  built : Bool
  response : Response V
  maintenance : Bool

def Answer.result (a : Answer V) : Except AppError V :=
  if !a.httpOk || !a.contentOk then .error .protocol
  else match a.status with
    | none => .error .protocol
    | some status =>
      if status ≠ 0 then
        if a.code = some "UNDER_MAINTENANCE" then .error (.maintenance status) else .error (.grpc status)
      else if !a.identityEncoding then .error .protocol
      else if !a.framed then .error .protocol
      else match a.decoded with
        | .error e => .error e.error
        | .ok value => if a.accepted then .ok value else .error .protocol

def Response.result : Response V → Except AppError V × Option String
  | .failed proxyRejected => (.error (if proxyRejected then .proxy else .transport), none)
  | .broken => (.error .transport, none)
  | .tooLarge => (.error .protocol, none)
  | .answer a => (a.result, a.code)

/-- The error of a request that is never sent. -/
def Transfer.blocked (global : Bool) (route : Route) (auth : Bool) (t : Transfer V) : Option AppError :=
  if !t.inTime then some .timeout
  else match t.encoding with
    | some e => some e.error
    | none =>
      if route.authenticated && !auth then some .accountUnavailable
      else if global && (route == .playerLogin || route.authenticated) && !t.bid then some .accountUnavailable
      else if !t.built then some .protocol
      else none

/-- One unary call, with its application code. -/
def executeOnce (global : Bool) (route : Route) (auth : Bool) (t : Transfer V) :
    Call (Except AppError V × Option String) :=
  match t.blocked global route auth with
  | some e => pure (.error e, none)
  | none => do
    emit (.sent route)
    pure t.response.result

def versionSignal (code : Option String) : Bool :=
  code == some "MASTER_VERSION_MISMATCH" || code == some "CLIENT_UPDATE_REQUIRED"

def retries (result : Except AppError V) (code : Option String) (t : Transfer V) : Bool :=
  (match result with
    | .error .transport => true
    | .error (.grpc 14) => true
    | _ => false) && !versionSignal code && !t.maintenance

/-- A call without credentials; `rest` has what happens to the further attempts that the settings allow. -/
def execute (global : Bool) (route : Route) (first : Transfer V) (rest : List (Transfer V)) : Call V := do
  let (result, code) ← executeOnce global route false first
  match rest with
  | [] => Prog.ofExcept result
  | next :: more =>
    if retries result code first then execute global route next more else Prog.ofExcept result

end Execute

section Version
variable {V : Type}

inductive VersionNeed where
  | fresh
  | required
  | refresh (wait : Bool)
  deriving DecidableEq, Repr

structure VersionEnv (V : Type) where
  need : VersionNeed
  bootstrapFree : Bool
  needAgain : VersionNeed
  path : Bool
  first : Transfer V
  rest : List (Transfer V)
  cut : Option Nat

/-- Runs the Version call a route needs first; the answer is whether the call now has its ticket for
the game path. -/
def ensureVersion (global : Bool) (env : VersionEnv V) : Call Bool :=
  match env.need, env.bootstrapFree with
  | .fresh, _ => pure false
  | .refresh false, false => pure false
  | _, _ => match env.needAgain with
    | .fresh => pure false
    | .required => do
      require env.path .upstreamUnavailable
      let _ ← execute global .version env.first env.rest
      pure true
    | .refresh _ =>
      if env.path then do
        let _ ← Prog.attempt (timeoutAt env.cut (execute global .version env.first env.rest))
        pure true
      else pure false

end Version

section Auth
variable {V : Type}

/-- What `account_auth` meets on its way. -/
structure AuthEnv (V : Type) where
  auth : Bool
  global : Bool
  configured : Bool
  refused : Bool
  deferred : Bool
  reusable : Bool
  mutex : Bool
  exclusive : Bool
  refusedAgain : Bool
  reusableAgain : Bool
  completedMeanwhile : Bool
  sdkPath : Bool
  validated : Bool
  afterDeadline : Bool
  login : Transfer V
  parsed : Bool
  pinned : Bool

/-- SDK `cache.login`. -/
def revalidate (env : AuthEnv V) : Call PUnit := do
  require env.sdkPath .upstreamUnavailable
  emit .cacheLogin
  require env.validated (if env.afterDeadline then .timeout else .accountUnavailable)

/-- Brings a shared SDK session about. -/
def sdkSession (env : AuthEnv V) : Call PUnit :=
  if env.reusable then pure ⟨⟩
  else do
    require env.mutex .timeout
    require env.exclusive .timeout
    require (!env.refusedAgain) .accountUnavailable
    if env.reusableAgain then pure ⟨⟩
    else do
      require (!env.completedMeanwhile) .upstreamUnavailable
      revalidate env

/-- The error of a PlayerLogin without a session. -/
def loginError (result : Except AppError V) : AppError :=
  match result with
  | .error .timeout => .timeout
  | .error (.maintenance status) => .maintenance status
  | _ => .accountUnavailable

/-- Game headers of an account; a Global account without a session logs in first. -/
def accountAuth (env : AuthEnv V) : Call PUnit :=
  if env.auth then pure ⟨⟩
  else do
    require env.global .accountUnavailable
    require env.configured .accountUnavailable
    require (!env.refused) .accountUnavailable
    require (!env.deferred) .accountUnavailable
    sdkSession env
    let (result, _) ← executeOnce true .playerLogin true env.login
    require (result.isOk && env.parsed) (loginError result)
    require env.pinned .accountUnavailable

end Auth

section Admitted
variable {V : Type}

/-- A semaphore with a deadline. -/
inductive Gate where
  | passed
  | timedOut
  | closed

def Gate.pass : Gate → Call PUnit
  | .passed => pure ⟨⟩
  | .timedOut => Prog.throw .timeout
  | .closed => Prog.throw .transport

inductive SelectError where
  | notFound
  | accountUnavailable

def SelectError.error : SelectError → AppError
  | .notFound => .notFound
  | .accountUnavailable => .accountUnavailable

inductive KeyError where
  | accountUnavailable
  | protocol

def KeyError.error : KeyError → AppError
  | .accountUnavailable => .accountUnavailable
  | .protocol => .protocol

def cacheKey : Except KeyError (Option String) → Call (Option String)
  | .ok key => pure key
  | .error e => Prog.throw e.error

/-- The arguments of a call; `checked` is a cache key already found empty. -/
structure Params where
  global : Bool
  route : Route
  named : Bool := false
  refreshKey : Option String := none
  expectedProtocol : Option String := none
  checked : Option String := none

/-- Global answers Whoami from the login, without an RPC. -/
def Params.identityOnly (p : Params) : Bool := p.global && p.route == .whoami

/-- What an admitted call meets on its way. -/
structure CallEnv (V : Type) where
  permit : Gate
  barrier : Bool
  protocolSha : Option String
  pool : Bool
  selection : Option SelectError
  cut : Option Nat
  protocolRead : Bool
  version : VersionEnv V
  key : Except KeyError (Option String)
  cached : Option (V × Bool)
  filled : Option V
  guard : Gate
  available : Bool
  keyAgain : Except KeyError (Option String)
  path : Bool
  auth : AuthEnv V
  identity : V
  identityCheck : Transfer V
  transfer : Transfer V
  furtherAttempts : List (Transfer V)

def targetNotFound (global : Bool) (route : Route) (response : Except AppError V) (code : Option String) : Bool :=
  (match response with
    | .error (.grpc status) =>
      if global then route == .profile || route == .eventDeck
      else route == .profile && (status == 2 || status == 7)
    | _ => false) && code == some "PLAYER_NOT_FOUND"

/-- The RPC of the call itself. -/
def rpc (p : Params) (env : CallEnv V) : Call V :=
  if p.route.authenticated then do
    let (response, code) ← executeOnce p.global p.route true env.transfer
    if targetNotFound p.global p.route response code then Prog.throw .notFound else Prog.ofExcept response
  else execute p.global p.route env.transfer env.furtherAttempts

def perform (p : Params) (env : CallEnv V) : Call V :=
  if p.route == .playerData && !p.global then do
    let (checked, _) ← executeOnce p.global .whoami true env.identityCheck
    match checked with
    | .error e => Prog.throw e
    | .ok _ => rpc p env
  else rpc p env

/-- A refresh goes on only if its key is still the current one. -/
def recheckKey (p : Params) (env : CallEnv V) : Call PUnit := do
  let again ← cacheKey env.keyAgain
  require (again == p.refreshKey) .protocolDefinition

/-- From the account's lock to the RPC. -/
def contact (p : Params) (env : CallEnv V) (ticket : Bool) : Call V := do
  env.guard.pass
  require (!p.route.authenticated || env.available) .accountUnavailable
  onlyIf p.refreshKey.isSome (recheckKey p env)
  require ((p.identityOnly && env.auth.auth) || ticket || env.path) .upstreamUnavailable
  onlyIf p.route.authenticated (accountAuth env.auth)
  if p.identityOnly then pure env.identity else perform p env

/-- A cache entry that answers the call, and whether it is refreshed in the background. -/
def lookup (p : Params) (env : CallEnv V) (key : Option String) : Option (V × Bool) :=
  if key.isSome && p.checked != key then env.cached.map fun hit => (hit.1, hit.2 && p.refreshKey.isNone) else none

def answered (route : Route) (hit : V × Bool) : Call V := do
  onlyIf hit.2 (emit (.refreshing route))
  pure hit.1

def versionTicket (p : Params) (env : CallEnv V) : Call Bool :=
  if p.identityOnly then pure false else ensureVersion p.global env.version

/-- The part of a call under its deadline. -/
def upstream (p : Params) (env : CallEnv V) : Call V := do
  require env.protocolRead .protocolDefinition
  let ticket ← versionTicket p env
  let key ← cacheKey env.key
  require (p.refreshKey.all fun k => key == some k) .protocolDefinition
  match lookup p env key with
  | some hit => answered p.route hit
  | none => match key.bind fun _ => env.filled with
    | some value => pure value
    | none => contact p env ticket

def lease (p : Params) (env : CallEnv V) : Call PUnit := do
  require env.pool .accountUnavailable
  match env.selection with
  | none => pure ⟨⟩
  | some e => Prog.throw (if p.expectedProtocol.isSome then .peerAccountUnavailable else e.error)

def admittedBody (p : Params) (env : CallEnv V) : Call V := do
  env.permit.pass
  require env.barrier .timeout
  require (p.expectedProtocol.all fun expected => env.protocolSha == some expected) .peerIdentityMismatch
  onlyIf p.route.authenticated (lease p env)
  timeoutAt env.cut (upstream p env)

/-- An open path refuses before dispatch, so that a peer caller may fail over. -/
def peerError (expectedProtocol : Option String) (e : AppError) : AppError :=
  if expectedProtocol.isSome && e == .upstreamUnavailable then .peerAccountUnavailable else e

/-- One admitted logical call. -/
def callAdmitted (p : Params) (env : CallEnv V) : Call V := do
  let result ← Prog.attempt (admittedBody p env)
  Prog.ofExcept (result.mapError (peerError p.expectedProtocol))

inductive Precheck (V : Type) where
  | hit (value : V) (stale : Bool)
  | miss (key : String)
  | skipped

/-- What a call meets before admission. A shared execution is this caller's own or that of the
caller it joins; a joiner may reach its own deadline first. -/
structure SelectedEnv (V : Type) where
  coalescePublicReads : Bool
  precheck : Precheck V
  flightKey : Bool
  joinExpired : Bool
  call : CallEnv V

def coalesces (coalescePublicReads : Bool) : Route → Bool
  | .version | .serverList | .announcements | .announcement => true
  | .eventRanking | .musicRanking | .challengeRanking => coalescePublicReads
  | _ => false

def shared (p : Params) (env : SelectedEnv V) : Call V :=
  if !p.named && p.refreshKey.isNone && coalesces env.coalescePublicReads p.route then do
    require env.flightKey .protocolDefinition
    require (!env.joinExpired) .timeout
    callAdmitted p env.call
  else callAdmitted p env.call

def callSelected (p : Params) (env : SelectedEnv V) : Call V := do
  require (routes.contains p.route || p.route == .serverList) .invalidRequest
  require (p.identityOnly || (forFamily p.global).contains p.route) .unsupportedRegionOperation
  if !p.named && p.refreshKey.isNone && !p.identityOnly then
    match env.precheck with
    | .hit value stale => answered p.route (value, stale)
    | .miss key => shared { p with checked := some key } env
    | .skipped => shared p env
  else shared p env

def callPeer (global : Bool) (route : Route) (expectedProtocol : String) (env : SelectedEnv V) : Call V :=
  callSelected { global := global, route := route, expectedProtocol := some expectedProtocol } env

end Admitted

end SiriusProxy.Routing
