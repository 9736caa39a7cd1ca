import SiriusProxy.Protocol.Descriptor

open SiriusProxy.Routing

namespace SiriusProxy.Protocol

section Checks
variable (pool : Pool) (t : pool.Index)

def field (name : String) (kind : Scalar) (repeated : Bool) : Except AppError Unit := do
  let f ← orInvalid ((pool.messages t).fields.find? fun f => decide (f.jsonName = name))
  ensure (decide (f.kind = .scalar kind) && pool.isList f == repeated && !pool.isMap f)

/-- Field `number` must exist with the given JSON name (when given), kind and cardinality. -/
def numbered (number : Nat) (json : Option String) (kind : Scalar) (repeated : Bool) : Except AppError Unit := do
  let f ← orInvalid ((pool.messages t).getField number)
  ensure (json.all (fun name => decide (f.jsonName = name)) && decide (f.kind = .scalar kind) &&
    pool.isList f == repeated && !pool.isMap f)

def numberedAll (kind : Scalar) : List (Nat × String) → Except AppError Unit
  | [] => .ok ()
  | (number, key) :: rest => do
    numbered pool t number (some key) kind false
    numberedAll kind rest

/-- The message a field refers to. -/
def messageOf (f : pool.FieldOf) : Except AppError pool.Index :=
  match f.kind with
  | .message index => .ok index
  | _ => invalid

end Checks

def validateServerList (pool : Pool) (m : pool.MethodOf) : Except AppError Unit := do
  let server ← orInvalid (((pool.messages m.output).getField 1).filter fun f => decide (f.name = "servers"))
  let info ← messageOf pool server
  ensure (pool.isList server && !pool.isMap server)
  numberedAll pool info .string
    [(1, "name"), (2, "cdnRoot"), (3, "apiServerRoot"), (4, "chatServerRoot"), (5, "atServerRoot"),
      (6, "liveServer"), (7, "displayName"), (9, "ageIconSpriteName")]
  -- The area ID is checked by number: the client's JSON name is `areaID`.
  numbered pool info 8 none .string false

def validatePlayerLogin (pool : Pool) (m : pool.MethodOf) : Except AppError Unit := do
  numberedAll pool m.input .string
    [(1, "sdkUid"), (2, "sdkAccessToken"), (4, "deviceModel"), (5, "operatingSystem"), (6, "clientVersion"),
      (8, "clientPackage"), (13, "idToken")]
  numberedAll pool m.input .uint32 [(3, "platform"), (10, "globalChannelId"), (11, "brandId"), (12, "areaId")]
  let uuid ← orInvalid ((pool.messages m.input).getField 7)
  let uuidType ← messageOf pool uuid
  ensure (decide (uuid.jsonName = "uuid") && !pool.isList uuid)
  numberedAll pool uuidType .string [(1, "adId"), (2, "identifier")]
  let credential ← orInvalid ((pool.messages m.output).getField 1)
  let credentialType ← messageOf pool credential
  ensure (decide (credential.jsonName = "credential") && !pool.isList credential)
  numberedAll pool credentialType .string [(1, "id"), (2, "credential")]
  numberedAll pool m.output .string [(2, "cpServerId"), (3, "cpServerName")]
  numbered pool m.output 4 (some "isNewUser") .uint32 false

def validateAnnouncements (pool : Pool) (m : pool.MethodOf) : Except AppError Unit := do
  let f ← orInvalid ((pool.messages m.input).getFieldByName "selected_tab")
  match f.kind with
  | .enum index =>
    ensure (decide (f.jsonName = "selectedTab") && !pool.isList f &&
      [0, 1, 2].all fun n => ((pool.enums index).getValue n).isSome)
  | _ => invalid

def validateFields (pool : Pool) (family : Family) (route : Route) (m : pool.MethodOf) : Except AppError Unit :=
  match route with
  | .announcement => field pool m.input "id" .int64 false
  | .profile => field pool m.input "playerProfileId" .int64 false
  | .eventRanking => do
    field pool m.input "eventId" .int64 false
    field pool m.input "ranks" .int32 true
  | .eventDeck => do
    field pool m.input "eventId" .int64 false
    field pool m.input "playerId" .string false
  | .musicRanking => field pool m.input "musicId" .int64 false
  | .challengeRanking => field pool m.input "challengeMusicId" .int64 false
  | .version => do
    field pool m.output "version" .string false
    if family = .global then field pool m.output "resourceVersion" .string false else .ok ()
  | .serverList => validateServerList pool m
  | .playerLogin => validatePlayerLogin pool m
  | .whoami => field pool m.output "playerId" .string false
  | .announcements => validateAnnouncements pool m
  | .playerData => .ok ()

def validateRoute (pool : Pool) (family : Family) (route : Route) : Except AppError Unit := do
  let m ← method pool route
  ensure (!(m.isClientStreaming || m.isServerStreaming))
  ensure (decide (m.skipAuthentication = some !route.authenticated))
  ensure (!(pool.messages m.input).fields.any fun f => decide (f.cardinality = .required))
  validateFields pool family route m

def validateRoutes (pool : Pool) (family : Family) : List Route → Except AppError Unit
  | [] => .ok ()
  | route :: rest => do
    validateRoute pool family route
    validateRoutes pool family rest

def validateContract (pool : Pool) (family : Family) : Except AppError Unit := do
  ensure pool.skipAuthentication
  validateRoutes pool family (contractForFamily family)

/-- The RPC is there, does not stream and asks for authentication where the proxy sends a credential. -/
def Offers (pool : Pool) (route : Route) : Prop :=
  ∃ m, method pool route = .ok m ∧ m.isClientStreaming = false ∧ m.isServerStreaming = false ∧
    m.skipAuthentication = some !route.authenticated

theorem validateRoute_ok {pool : Pool} {family : Family} {route : Route} {u : Unit}
    (ok : validateRoute pool family route = .ok u) : Offers pool route := by
  obtain ⟨m, found, ok⟩ := bind_ok ok
  obtain ⟨⟨⟩, unary, ok⟩ := bind_ok ok
  obtain ⟨⟨⟩, auth, ok⟩ := bind_ok ok
  have streams := ensure_ok unary
  rw [Bool.not_eq_true', Bool.or_eq_false_iff] at streams
  exact ⟨m, found, streams.1, streams.2, of_decide_eq_true (ensure_ok auth)⟩

theorem validateRoutes_ok {pool : Pool} {family : Family} {list : List Route} {u : Unit}
    (ok : validateRoutes pool family list = .ok u) : ∀ route ∈ list, Offers pool route := by
  induction list with
  | nil => exact fun route none => absurd none List.not_mem_nil
  | cons first rest ih =>
    obtain ⟨⟨⟩, passed, ok⟩ := bind_ok ok
    intro route member
    rcases List.mem_cons.mp member with rfl | later
    · exact validateRoute_ok passed
    · exact ih ok route later

theorem validateContract_ok {pool : Pool} {family : Family} {u : Unit} (ok : validateContract pool family = .ok u) :
    ∀ route ∈ contractForFamily family, Offers pool route := by
  obtain ⟨⟨⟩, -, ok⟩ := bind_ok ok
  exact validateRoutes_ok ok

end SiriusProxy.Protocol
