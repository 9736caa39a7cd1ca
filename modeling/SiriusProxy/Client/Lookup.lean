import SiriusProxy.Client.Refresh
import SiriusProxy.Health.Signal
import SiriusProxy.Lib.JsonText
import SiriusProxy.Pool
import SiriusProxy.RedisCache

namespace SiriusProxy.Client.Lookup
open Effect Routing

/-- `Route::from_rpc` of the response cache. -/
def fromRpc : Route → Option ResponseCache.Route
  | .announcements => some .announcements
  | .announcement => some .announcement
  | .eventRanking => some .eventRankings
  | .musicRanking => some .songRankings
  | .challengeRanking => some .challengeRankings
  | _ => none

/-- The response cache. `redis` is what Redis holds, `none` while a read fails or takes too long; `late` tells
whether its answers take more than a quarter of the time that a call has left. -/
structure Cache where
  config : ResponseCache.Config
  memory : ResponseCache.Memory := {}
  arcs : Nat := 0
  redis : Option ResponseCache.Redis.Store := none
  late : Bool := false

def Cache.ttl (route : Route) (cache : Cache) : Option Nat :=
  (fromRpc route).bind fun route =>
    (match cache.config with
      | .disabled => none
      | .memory config => some ((config.routeTtlMs.lookup route).getD config.ttlMs)
      | .redis config => some ((config.routeTtlMs.lookup route).getD config.ttlMs)).filter fun ttl => decide (0 < ttl)

def Cache.staleWindow (cache : Cache) : Nat :=
  match cache.config with
  | .disabled => 0
  | .memory config => config.staleWhileRevalidateMs
  | .redis config => config.staleWhileRevalidateMs

/-- What a cache key is the digest of. -/
structure Scope (V : Type) where
  schema : Nat := 2
  staleMs : Nat
  region : Region
  environment : String
  endpoint : String
  platform : Platform
  client : String
  protocol : String
  protocolGeneration : Nat
  account : Option String
  accountGeneration : Nat
  master : Option String
  route : Route
  input : V
  ttlMs : Nat

/-- `serde_json` and SHA-256: the text of a scope, the digest of a text in hexadecimal digits, and an object
without one of its members. -/
structure Formats (V : Type) where
  json : ResponseCache.Json V
  toVec : Scope V → Option (List Char)
  digest : List Char → String
  remove : String → V → V
  playerId : String → V

/-- The parts of a client that a call reads. `sources` has the accounts of the pool by their index; `inflight`
counts the calls that hold a permit, and `refreshing` has the stripes of the running background refreshes. -/
structure GameClient where
  config : Config
  endpoint : String
  maxInflight : Nat
  sessionLock : Bool := false
  state : State
  protocolSha : String
  protocolGeneration : Nat
  pool : Accounts.Pool
  sources : List Source
  cache : Cache
  path : PathHealth.State := {}
  inflight : Nat := 0
  reloading : Bool := false
  bootstrapping : Bool := false
  refreshing : List Nat := []
  now : Instant := 0
  nowMs : Nat := 0

structure Call (V : Type) where
  route : Route
  input : V
  name : Option String := none
  refreshKey : Option String := none
  expectedProtocol : Option String := none
  checked : Option String := none

/-- What a call does to the cache and to the world outside; `account` is the account's session, `refresh` a
background refresh that it spawns. -/
inductive Effect where
  | read (key : String)
  | filling (key : String)
  | put (key : String)
  | refresh (key : String) (account : Option String)
  | account (index : Nat)
  | contact (route : Route)
  deriving DecidableEq, Repr

def Effect.key : Effect → Option String
  | .read key | .filling key | .put key | .refresh key _ => some key
  | .account _ | .contact _ => none

/-- A call on its way: its ticket for the game path, with whether it is the probe, and its effects, oldest first. -/
structure Run where
  client : GameClient
  ticket : Option Bool := none
  log : List Effect := []

abbrev Step (α : Type) : Type := Prog Run AppError α

/-- What a call meets outside of the client: whether a fill guard comes in time, the account's lock or an anonymous
slot, and what the game answers, with the client after it. -/
structure Outside (V : Type) where
  fillGuard : Bool
  session : Except AppError PUnit
  hasAuth : Bool
  accountAuth : Nat → GameClient → Except AppError String × GameClient
  execute : Route → GameClient → Except AppError V × GameClient
  executeOnce : Route → GameClient → (Except AppError V × Option String) × GameClient
  report : Nat → Except AppError V → Option String → GameClient → GameClient

section Steps
variable {V : Type}

def view : Step GameClient := fun r => (.ok r.client, r)

def change (f : GameClient → GameClient) : Step PUnit := Prog.modify fun r => { r with client := f r.client }

def note (e : Effect) : Step PUnit := Prog.modify fun r => { r with log := r.log ++ [e] }

/-- A part of the outside world acts on the client. -/
def act {α : Type} (f : GameClient → α × GameClient) : Step α := fun r =>
  (.ok (f r.client).1, { r with client := (f r.client).2 })

end Steps

section Cached
variable {V : Type} (lib : Formats V)

/-- `get_with_state` without another call between its locked sections. -/
def Cache.getWithState (nowMs : Nat) (key : String) (cache : Cache) : Option (ResponseCache.Cached V) × Cache :=
  match cache.config with
  | .disabled => (none, cache)
  | .memory _ => match cache.memory.entries.get? key with
    | none => (none, cache)
    | some slot => match ResponseCache.decode lib.json slot.bytes none nowMs with
      | some cached => (some cached, cache)
      | none => (none, { cache with memory := (cache.memory.expire key slot).getD cache.memory })
  | .redis config => (cache.redis.bind fun store => ResponseCache.Redis.getWithState lib.json config store nowMs key, cache)

def Cache.getAnyWithState (nowMs : Nat) (cache : Cache) : List String → Option (ResponseCache.Cached V) × Cache
  | [] => (none, cache)
  | key :: keys => match cache.config with
    | .redis config =>
      (cache.redis.bind fun store => ResponseCache.Redis.getAnyWithState lib.json config store nowMs (key :: keys), cache)
    | _ => match cache.getWithState lib nowMs key with
      | (some cached, after) => (some cached, after)
      | (none, after) => after.getAnyWithState nowMs keys

/-- Whether the budget of a read elapses first. -/
def Cache.slow (cache : Cache) : Bool :=
  match cache.config with
  | .redis _ => cache.late
  | _ => false

def Cache.putRoute (nowMs : Nat) (route : Route) (key : String) (value : V) (cache : Cache) : Cache :=
  match cache.ttl route, cache.config with
  | some ttl, .memory config => match lib.json.toVec (ResponseCache.Entry.fill config nowMs ttl value) with
    | none => cache
    | some bytes =>
      if config.maxEntryBytes < bytes.length then cache
      else { cache with
        arcs := cache.arcs + 1
        memory := (cache.memory.put config key { id := cache.arcs, bytes := bytes }).getD cache.memory }
  | _, .redis config => { cache with
      redis := cache.redis.map fun store =>
        ResponseCache.Redis.putRoute lib.json config store nowMs (fromRpc route) key value }
  | _, _ => cache

/-- The stripe of the refresh guards that a key falls on. -/
def stripe (key : String) : Nat := key.toUTF8.data.toList.foldl (fun h byte => (h * 31 + byte.toNat) % 2 ^ 64) 0 % 64

def stripAccountFields (route : Route) (value : V) : V :=
  if route = .musicRanking ∨ route = .challengeRanking then lib.remove "myScore" (lib.remove "myRank" value) else value

/-- The static identity of a JP account, or the name and SDK uid of a Global one. -/
def GameClient.cacheScope (c : GameClient) (index : Nat) : List Char :=
  match c.pool.entries[index]?, c.sources[index]? with
  | _, some (.static playerId credential) => JsonText.arr [JsonText.str playerId, JsonText.str credential]
  | some account, some (.global g) =>
    JsonText.arr [JsonText.str "global", JsonText.str account.name, JsonText.str g.sdk.uid]
  | _, _ => []

def scope (c : GameClient) (route : Route) (input : V) (account : Option Nat) (ttl : Nat) : Scope V where
  staleMs := c.cache.staleWindow
  region := c.config.region
  environment := c.config.environment
  endpoint := c.endpoint
  platform := c.config.platform
  client := c.config.clientVersion
  protocol := c.protocolSha
  protocolGeneration := c.protocolGeneration
  account := account.map fun index => lib.digest (c.cacheScope index)
  accountGeneration := c.pool.generation
  master := c.state.observation.masterVersion
  route := route
  input := input
  ttlMs := ttl

def responseCacheKey (c : GameClient) (route : Route) (input : V) (account : Option Nat) :
    Except AppError (Option String) :=
  match c.cache.ttl route with
  | none => .ok none
  | some ttl =>
    if c.state.observation.maintenance then .ok none
    else match lib.toVec (scope lib c route input account ttl) with
      | none => .error .protocol
      | some text => .ok (some (lib.digest text))

/-- A read under its budget: the outer `none` is a budget that elapsed. -/
def timedRead (key : String) : Step (Option (Option (ResponseCache.Cached V))) := do
  note (.read key)
  let c ← view
  if c.cache.slow then pure none
  else do
    let found ← act fun c =>
      ((c.cache.getWithState lib c.nowMs key).1, { c with cache := (c.cache.getWithState lib c.nowMs key).2 })
    pure (some found)

def readCachedState (route : Route) (key : String) : Step (Option (ResponseCache.Cached V)) := do
  let found ← timedRead lib key
  pure (found.join.map fun cached => { cached with value := stripAccountFields lib route cached.value })

def readCached (route : Route) (key : String) : Step (Option V) := do
  let found ← timedRead lib key
  pure ((found.join.filter fun cached => !cached.stale).map fun cached => stripAccountFields lib route cached.value)

/-- `spawn_refresh`: at most one for the stripe of the key at a time. -/
def spawnRefresh (key : String) (account : Option String) : Step PUnit := do
  let c ← view
  if c.refreshing.contains (stripe key) then pure ⟨⟩
  else do
    change fun c => { c with refreshing := stripe key :: c.refreshing }
    note (.refresh key account)

def accountName (c : GameClient) (account : Option Nat) : Option String :=
  account.bind fun index => c.pool.entries[index]?.map Accounts.Account.name

end Cached

section Precheck
variable {V : Type} (lib : Formats V)

inductive Precheck (V : Type) where
  | hit (value : V)
  | miss (key : String)
  | skipped
  deriving DecidableEq, Repr

/-- The keys of all accounts in rotation order; the first that fails ends the lookup. -/
def rotationKeys (c : GameClient) (call : Call V) : List Nat → Option (List String)
  | [] => some []
  | index :: rest => match responseCacheKey lib c call.route call.input (some index) with
    | .ok (some key) => (rotationKeys c call rest).map (key :: ·)
    | _ => none

def retainedWhileQuarantined (call : Call V) (rotation : List Nat) : Step (Precheck V) := do
  let c ← view
  if c.cache.staleWindow = 0 then pure .skipped
  else match rotationKeys lib c call rotation with
    | none => pure .skipped
    | some keys =>
      if c.cache.slow then pure .skipped
      else do
        let found ← act fun c => ((c.cache.getAnyWithState lib c.nowMs keys).1,
          { c with cache := (c.cache.getAnyWithState lib c.nowMs keys).2 })
        pure (match found with
          | some cached => .hit (stripAccountFields lib call.route cached.value)
          | none => .skipped)

/-- The lookup under the key of one account, or of no account. -/
def keyedLookup (call : Call V) (account : Option Nat) : Step (Precheck V) := do
  let c ← view
  match responseCacheKey lib c call.route call.input account with
  | .ok (some key) => do
    let found ← timedRead lib key
    match found with
    | none => pure .skipped
    | some none => pure (.miss key)
    | some (some cached) => do
      onlyIf cached.stale (spawnRefresh key (accountName c account))
      pure (.hit (stripAccountFields lib call.route cached.value))
  | _ => pure .skipped

def leasedLookup (call : Call V) : Step (Precheck V) := do
  let c ← view
  if call.route.authenticated then
    match c.pool.peekPublic c.now with
    | some (some (index, _)) => keyedLookup lib call (some index)
    | _ => retainedWhileQuarantined lib call ((c.pool.order.getD []).map Prod.fst)
  else keyedLookup lib call none

def cachedBeforeAdmission (call : Call V) : Step (Precheck V) := do
  let c ← view
  if (c.cache.ttl call.route).isNone || !call.expectedProtocol.all (· == c.protocolSha) then pure .skipped
  else match Refresh.versionNeed c.config call.route c.now c.state with
    | .fresh | .refresh false => leasedLookup lib call
    | .required | .refresh true => pure .skipped

end Precheck

section Admitted
variable {V : Type} (lib : Formats V) (out : Outside V)

/-- `admit_path`: the ticket is taken once. -/
def admitPath : Step PUnit := fun r =>
  match r.ticket with
  | some _ => (.ok ⟨⟩, r)
  | none => match PathHealth.admitCall r.client.now r.client.path with
    | none => (.error .upstreamUnavailable, r)
    | some (path, probe) => (.ok ⟨⟩, { r with client := { r.client with path := path }, ticket := some probe })

/-- The ticket is dropped with the call. -/
def dropTicket (r : Run) : Run :=
  match r.ticket with
  | none => r
  | some probe => { r with client := { r.client with path := PathHealth.dropTicket probe r.client.path }, ticket := none }

/-- An RPC without an account. -/
def execute (route : Route) : Step V := do
  note (.contact route)
  let answer ← act (out.execute route)
  Prog.ofExcept answer

def refreshVersion : Step PUnit := do
  let answer ← Prog.attempt (execute out .version)
  match answer with
  | .ok _ => pure ⟨⟩
  | .error _ => change fun c => { c with state := { c.state with versionRetryAt := some (c.now + versionRetry) } }

def ensureVersion (route : Route) : Step PUnit := do
  let c ← view
  match Refresh.versionNeed c.config route c.now c.state with
  | .fresh => pure ⟨⟩
  | .required => do
    require (!c.bootstrapping) .timeout
    admitPath
    let _ ← execute out .version
    pure ⟨⟩
  | .refresh wait =>
    if c.bootstrapping && !wait then pure ⟨⟩
    else do
      require (!c.bootstrapping) .timeout
      let admitted ← Prog.attempt admitPath
      match admitted with
      | .error _ => pure ⟨⟩
      | .ok _ => refreshVersion out

/-- The first lookup of the admitted call, unless the lookup before found the key empty. -/
def earlyRead (call : Call V) (account : Option Nat) (key : Option String) : Step (Option V) :=
  match key.filter fun key => decide (call.checked ≠ some key) with
  | none => pure none
  | some key =>
    if call.refreshKey.isSome then readCached lib call.route key
    else do
      let c ← view
      let found ← readCachedState lib call.route key
      match found with
      | none => pure none
      | some cached => do
        onlyIf cached.stale (spawnRefresh key (accountName c account))
        pure (some cached.value)

/-- A refresh goes on only if its key is still the current one. -/
def recheckKey (call : Call V) (account : Option Nat) : Step PUnit := do
  let c ← view
  match call.refreshKey with
  | none => pure ⟨⟩
  | some expected => do
    let key ← Prog.ofExcept (responseCacheKey lib c call.route call.input account)
    require (decide (key = some expected)) .protocolDefinition

def report (index : Nat) (result : Except AppError V) (code : Option String) : Step PUnit :=
  change (out.report index result code)

/-- An RPC of an account, and its report unless the account has already been reported. -/
def executeOnce (global : Bool) (route : Route) (index : Nat) : Step V := do
  note (.contact route)
  let (response, code) ← act (out.executeOnce route)
  let missing := targetNotFound global route response code
  report out index (if missing then .error .notFound else response) (if missing then none else code)
  Prog.ofExcept (if missing then .error .notFound else response)

/-- The identity check before `PlayerData` in JP; only its failure is reported. -/
def checkIdentity (index : Nat) : Step PUnit := do
  note (.contact .whoami)
  let (checked, code) ← act (out.executeOnce .whoami)
  match checked with
  | .ok _ => pure ⟨⟩
  | .error e => do
    report out index (.error e) code
    Prog.throw e

def rpc (global : Bool) (call : Call V) (account : Option Nat) : Step V :=
  match account with
  | none => execute out call.route
  | some index => do
    onlyIf (call.route == .playerData && !global) (checkIdentity out index)
    executeOnce out global call.route index

def openAccount (account : Option Nat) : Step (Option String) :=
  match account with
  | none => pure none
  | some index => do
    note (.account index)
    let player ← act (out.accountAuth index)
    let player ← Prog.ofExcept player
    pure (some player)

def storeValue (route : Route) (key : Option String) (value : V) : Step V :=
  match key with
  | none => pure value
  | some key => do
    let value := stripAccountFields lib route value
    note (.put key)
    change fun c => { c with cache := c.cache.putRoute lib c.nowMs route key value }
    pure value

def stillAvailable (c : GameClient) (account : Option Nat) : Bool :=
  account.all fun index => (c.pool.entries[index]?).any fun account => account.available c.now

/-- From the account's lock to the stored answer. -/
def contact (call : Call V) (account : Option Nat) (key : Option String) : Step V := do
  Prog.ofExcept out.session
  let c ← view
  let identityOnly := c.config.region.isGlobal && call.route == .whoami
  require (stillAvailable c account) .accountUnavailable
  recheckKey lib call account
  onlyIf (!(identityOnly && account.isSome && out.hasAuth)) admitPath
  let player ← openAccount out account
  if identityOnly then
    match player with
    | none => Prog.throw .accountUnavailable
    | some player => pure (lib.playerId player)
  else do
    let value ← rpc out c.config.region.isGlobal call account
    storeValue lib call.route key value

/-- Behind the fill guard the key is looked up once more. -/
def guarded (call : Call V) (account : Option Nat) (key : String) : Step V := do
  require out.fillGuard .timeout
  let found ← readCached lib call.route key
  match found with
  | some value => pure value
  | none => contact lib out call account (some key)

def fillAndContact (call : Call V) (account : Option Nat) (key : Option String) : Step V :=
  match key with
  | none => contact lib out call account none
  | some key => do
    note (.filling key)
    guarded lib out call account key

def keyedCall (call : Call V) (account : Option Nat) (key : Option String) : Step V := do
  require (call.refreshKey.all fun expected => decide (key = some expected)) .protocolDefinition
  let found ← earlyRead lib call account key
  match found with
  | some value => pure value
  | none => fillAndContact lib out call account key

def versionFirst (call : Call V) : Step PUnit := do
  let c ← view
  if c.config.region.isGlobal && call.route == .whoami then pure ⟨⟩ else ensureVersion out call.route

def upstream (call : Call V) (account : Option Nat) : Step V := do
  versionFirst out call
  let c ← view
  let key ← Prog.ofExcept (responseCacheKey lib c call.route call.input account)
  keyedCall lib out call account key

def selectError (call : Call V) (e : AppError) : AppError :=
  if call.expectedProtocol.isSome then .peerAccountUnavailable else e

/-- The account that the call leases. -/
def lease (call : Call V) : Step Nat := fun r =>
  match r.client.pool.select r.client.now call.name (call.route == .whoami || call.route == .playerData) with
  | none => (.error .accountUnavailable, r)
  | some (.error e, _) => (.error (selectError call e), r)
  | some (.ok index, pool) => (.ok index, { r with client := { r.client with pool := pool } })

def dropLease (index : Nat) (r : Run) : Run :=
  { r with client := { r.client with pool := r.client.pool.release index } }

def leasedCall (call : Call V) : Step V :=
  if call.route.authenticated then do
    let index ← lease call
    Prog.closing (dropLease index) (Prog.closing dropTicket (upstream lib out call (some index)))
  else Prog.closing dropTicket (upstream lib out call none)

def dropPermit (r : Run) : Run := { r with client := { r.client with inflight := r.client.inflight - 1 } }

def permittedCall (call : Call V) : Step V := do
  let c ← view
  require (!c.reloading) .timeout
  require (call.expectedProtocol.all (· == c.protocolSha)) .peerIdentityMismatch
  leasedCall lib out call

/-- No other call runs, so a permit or a barrier that is taken stays taken until the deadline. -/
def admittedBody (call : Call V) : Step V := do
  let c ← view
  require (decide (c.inflight < c.maxInflight)) .timeout
  change fun c => { c with inflight := c.inflight + 1 }
  Prog.closing dropPermit (permittedCall lib out call)

def noteFailure (e : AppError) : Step PUnit :=
  if e = .timeout ∨ e = .transport ∨ e = .protocol then
    change fun c => { c with state := c.state.callFailed c.now }
  else pure ⟨⟩

/-- One admitted logical call. -/
def callAdmitted (call : Call V) : Step V := do
  let result ← Prog.attempt (admittedBody lib out call)
  match result with
  | .ok value => pure value
  | .error e => do
    noteFailure (peerError call.expectedProtocol e)
    Prog.throw (peerError call.expectedProtocol e)

end Admitted

end SiriusProxy.Client.Lookup
