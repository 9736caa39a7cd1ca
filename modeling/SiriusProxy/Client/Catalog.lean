import SiriusProxy.Client.Snapshot
import SiriusProxy.Master.Update
import SiriusProxy.Text

namespace SiriusProxy.Client.Global
open Master.Update (Network UpdateError)
open Master (safeVersion isAsciiHexDigit)

section Resources

/-- The catalog, its hash and the directory of the bundles. -/
def globalCatalogUrls (root : String) (platform : Platform) (version : String) : String × String × String :=
  let base := root ++ "/asset/" ++ platform.name
  (base ++ "/catalog_" ++ version ++ ".bin", base ++ "/catalog_" ++ version ++ ".hash", base)

def maxCatalogHash : Nat := 256

/-- The hexadecimal digits are ASCII, so 32 of them are 32 bytes. -/
def catalogHash (body : List UInt8) : Option String :=
  match String.fromUTF8? ⟨body.toArray⟩ with
  | none => none
  | some text =>
    let text := trim text.toList
    if decide (text.length = 32) && text.all isAsciiHexDigit then some (String.ofList (text.map Char.toLower)) else none

/-- One attempt of `fetch_catalog_hash`; a request that fails has no response. -/
def once : Option (Master.Update.Response (List UInt8)) → Except UpdateError String
  | none => .error .download
  | some response => match Master.Update.body List.length List.append [] maxCatalogHash response with
    | .error e => .error e
    | .ok bytes => match catalogHash bytes with
      | none => .error .master
      | some hash => .ok hash

end Resources

inductive CdnAuthorization where
  | none
  | basic
  deriving DecidableEq

structure ResourceSnapshotConfig where
  cdnAuthorization : CdnAuthorization
  usernameEnv : Option String
  catalogHashTtlSeconds : Nat
  network : Network

/-- The part of `Config::validate` about `resource_snapshot`. -/
def validateResourceSnapshot (config : Config) (snapshot : ResourceSnapshotConfig) : Except AppError Unit :=
  if !config.region.isGlobal then
    .error (.config "resource_snapshot is only for HK/EN/KR; JP resource snapshots come from x-asset-version")
  else match snapshot.network.validate with
    | .error _ => .error (.config "invalid resource snapshot network configuration")
    | .ok () =>
      if !(decide (10 ≤ snapshot.catalogHashTtlSeconds) && decide (snapshot.catalogHashTtlSeconds ≤ 300)) then
        .error (.config "resource_snapshot.catalog_hash_ttl_seconds must be 10..300")
      else
        let credential := (config.cdnCredentialEnv.lookup config.defaultCdnRoot).isSome
        let valid := match snapshot.cdnAuthorization with
          | .basic => snapshot.usernameEnv.any (fun name => name != "") && credential
          | .none => snapshot.usernameEnv.isNone && !credential
        if !valid then
          .error (.config "resource CDN authorization: basic needs username_env and a credential for the default CDN; none needs neither")
        else .ok ()

/-- A client with a valid `resource_snapshot`; `secret` reads the environment. -/
structure Settings where
  config : Config
  snapshot : ResourceSnapshotConfig
  secret : String → Option String
  valid : validateResourceSnapshot config snapshot = .ok ()

/-- The schema 3 snapshot; its layout is `global`. -/
structure ResourceSnapshot extends Resources.ResourceSnapshot where
  catalogUrl : String
  bundleBaseUrl : String
  cdnAuthorization : CdnAuthorization
  deriving DecidableEq

/-- The last attempt to fetch a hash, which may have failed. -/
structure CatalogHash where
  root : String
  version : String
  hash : Option String
  at_ : Instant

/-- The state with the fields that only Global uses. The snapshot of `client` is the one of JP. -/
structure State where
  client : Client.State
  snapshot : Option ResourceSnapshot := none
  globalVersion : Option (String × Instant) := none
  catalogHash : Option CatalogHash := none

def State.new (config : Config) : State := { client := Client.State.new config }

def resourceVersionComponent (value : String) : Bool :=
  value != "" && decide (value.utf8ByteSize ≤ 128) && value != "." && value != ".." && value != "unknown" &&
    value.toList.all isComponentChar

/-- The resource version of a VERSION body that Global goes by. -/
def usable (resource : Option String) : Option String :=
  (resource.filter fun v => safeVersion v).filter fun v => resourceVersionComponent v

/-- The state update of a VERSION response; `asset` is what its header selects. -/
def State.version (config : Config) (version : String) (resource asset : Option String) (now utc : Instant)
    (s : State) : State :=
  let body := resource.filter fun v => safeVersion v
  let client := s.client.version config version body (body.or asset) now
  { s with
    client := { client with snapshotStale := true }
    globalVersion := (usable resource).map fun v => (v, utc) }

/-- An accepted `reload_protocol`. -/
def State.reload (s : State) : State := { s with client := s.client.reload, globalVersion := none }

/-- `num_seconds` of the time that has passed. -/
def seconds (later earlier : Instant) : Int := ((later : Int) - earlier).tdiv 1000000000

def recent (utc observedAt : Instant) : Bool := decide (0 ≤ seconds utc observedAt ∧ seconds utc observedAt ≤ 300)

/-- What a build takes from the state before its request. -/
structure Plan where
  version : String
  root : String
  cached : Option (Option String)
  basic : Option (String × String)

namespace Settings
variable (settings : Settings)

def ttl : Nat := fromSecs settings.snapshot.catalogHashTtlSeconds

def basic (s : Client.State) : Except AppError (Option (String × String)) :=
  match settings.snapshot.cdnAuthorization with
  | .none =>
    if (settings.config.cdnCredentialEnv.lookup s.cdnRoot).isSome then .error .snapshotUnavailable else .ok none
  | .basic =>
    match settings.snapshot.usernameEnv.bind settings.secret, settings.config.cdnSecrets.lookup s.cdnRoot with
    | some username, some password =>
      if s.credentialValid && !username.toList.contains ':' then .ok (some (username, password))
      else .error .snapshotUnavailable
    | _, _ => .error .snapshotUnavailable

/-- The snapshot is the one of the latest version already. -/
def built (s : State) (version : String) (observedAt : Instant) : Bool :=
  !s.client.snapshotStale && s.snapshot.any fun snapshot =>
    snapshot.observedAt == observedAt && snapshot.resourceVersion == version

/-- `ensure_global_snapshot` before its request; `none` where nothing is left to do. -/
def look (s : State) (now utc : Instant) : Except AppError (Option Plan) :=
  if s.client.observation.maintenance || s.client.observation.grpcStatus != some 0 then .error .snapshotUnavailable
  else match s.globalVersion with
    | none => .error .snapshotUnavailable
    | some (version, observedAt) =>
      if s.client.cdnRoot != settings.config.defaultCdnRoot || !recent utc observedAt then .error .snapshotUnavailable
      else if built s version observedAt then .ok none
      else match settings.basic s.client with
        | .error e => .error e
        | .ok basic =>
          let cached := (s.catalogHash.filter fun last =>
            last.root == s.client.cdnRoot && last.version == version && decide (now - last.at_ < settings.ttl)).map (·.hash)
          .ok (some { version, root := s.client.cdnRoot, cached, basic })

def credentialRef (root : String) : Option String :=
  match settings.snapshot.cdnAuthorization with
  | .none => some ""
  | .basic => settings.config.cdnCredentialEnv.lookup root

/-- The end of `ensure_global_snapshot`, with the hash. -/
def publish (plan : Plan) (hash protocolVersion : String) (s : State) : Except AppError State :=
  match s.globalVersion with
  | none => .error .snapshotUnavailable
  | some (current, observedAt) =>
    if current != plan.version then .error .snapshotUnavailable
    else if s.client.cdnRoot != plan.root || s.client.observation.maintenance ||
        s.client.observation.grpcStatus != some 0 || (plan.basic.isSome && !s.client.credentialValid) then
      .error .snapshotUnavailable
    else match settings.credentialRef plan.root with
      | none => .error .snapshotUnavailable
      | some credentialRef =>
        let urls := globalCatalogUrls plan.root settings.config.platform plan.version
        .ok { s with
          client := { s.client with snapshotStale := false }
          snapshot := some {
            region := settings.config.region
            environment := settings.config.environment
            platform := settings.config.platform
            clientVersion := settings.config.clientVersion
            protocolVersion
            masterVersion := s.client.observation.masterVersion
            resourceVersion := plan.version
            platformHash := hash
            effectiveCdnRoot := plan.root
            credentialRef
            observedAt
            catalogUrl := urls.1
            bundleBaseUrl := urls.2.2
            cdnAuthorization := settings.snapshot.cdnAuthorization } }

end Settings

/-- The end of `refresh_resource_snapshot`, after its call and its build. -/
def State.refreshed (started utc : Instant) (s : State) : Except AppError ResourceSnapshot :=
  if s.client.snapshotStale || s.client.observation.maintenance || s.client.observation.grpcStatus != some 0 then
    .error .snapshotUnavailable
  else match s.snapshot with
    | none => .error .snapshotUnavailable
    | some snapshot =>
      if decide (snapshot.observedAt < started) || !recent utc snapshot.observedAt then .error .snapshotUnavailable
      else .ok snapshot

/-- The end of `snapshot`, with whether it is stale. -/
def State.served (utc : Instant) (s : State) : Except AppError (ResourceSnapshot × Bool) :=
  match s.snapshot with
  | none => .error .snapshotUnavailable
  | some snapshot => .ok (snapshot, s.client.snapshotStale || decide (300 < seconds utc snapshot.observedAt))

end SiriusProxy.Client.Global
