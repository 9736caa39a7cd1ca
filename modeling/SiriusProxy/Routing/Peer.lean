import SiriusProxy.Routing.Call

namespace SiriusProxy.Routing

inductive Operation where
  | version
  | servers
  | announcements (tab : Int)
  | announcement (id : Int)
  | profile (profileId : Int)
  | eventRanking (eventId : Int) (ranks : List Int)
  | eventDeck (eventId : Int) (playerId : String)
  | musicRanking (musicId : Int)
  | challengeRanking (challengeMusicId : Int)
  deriving DecidableEq, Repr

/-- The route of a valid operation. -/
def Operation.rpc : Operation → Except AppError Route
  | .version => .ok .version
  | .servers => .ok .serverList
  | .announcements tab => if 0 ≤ tab ∧ tab ≤ 2 then .ok .announcements else .error .invalidRequest
  | .announcement id => if 0 < id then .ok .announcement else .error .invalidRequest
  | .profile id => if 0 < id then .ok .profile else .error .invalidRequest
  | .eventRanking id ranks =>
    if ranks = [] ∨ 100 < ranks.length ∨ ¬ ranks.Nodup ∨ ∃ r ∈ ranks, r ≤ 0 then .error .invalidRequest
    else if 0 < id then .ok .eventRanking else .error .invalidRequest
  | .eventDeck id player =>
    if player = "" ∨ 128 < player.utf8ByteSize ∨
        !player.toList.all (fun c => isAsciiAlphanumeric c || c == '-' || c == '_') then .error .invalidRequest
    else if 0 < id then .ok .eventDeck else .error .invalidRequest
  | .musicRanking id => if 0 < id then .ok .musicRanking else .error .invalidRequest
  | .challengeRanking id => if 0 < id then .ok .challengeRanking else .error .invalidRequest

structure Identity where
  contractVersion : Nat
  region : Region
  environment : String
  platform : Platform
  clientVersion : String
  protocolSha256 : String
  deriving DecidableEq, Repr

structure Request where
  requestId : String
  identity : Identity
  operation : Operation
  deriving DecidableEq, Repr

inductive Failure where
  | identityMismatch
  | unsupportedOperation
  | accountUnavailable
  | unavailableBeforeDispatch
  | timeout
  | transport
  | protocol
  | game (grpcStatus : Nat)
  | notFound
  deriving DecidableEq, Repr

def Failure.ofError : AppError → Failure
  | .unsupportedRegionOperation => .unsupportedOperation
  | .peerAccountUnavailable | .upstreamUnavailable => .unavailableBeforeDispatch
  | .accountUnavailable => .accountUnavailable
  | .timeout => .timeout
  | .transport | .proxy => .transport
  | .grpc status | .maintenance status => .game status
  | .peerIdentityMismatch => .identityMismatch
  | .notFound => .notFound
  | _ => .protocol

def failureError (maintenance : Bool) : Failure → AppError
  | .identityMismatch => .peerIdentityMismatch
  | .unsupportedOperation => .unsupportedRegionOperation
  | .unavailableBeforeDispatch => .peerAccountUnavailable
  | .accountUnavailable => .accountUnavailable
  | .timeout => .timeout
  | .transport => .transport
  | .protocol => .protocol
  | .game status => if maintenance then .maintenance status else .grpc status
  | .notFound => .notFound

inductive Outcome (V : Type) where
  | success (data : V)
  | failure (kind : Failure)

/-- The answer of a peer: its outcome and the maintenance flag of its observation. -/
structure Reply (V : Type) where
  requestId : String
  identity : Identity
  outcome : Outcome V
  maintenance : Bool

/-- The HTTP status of an error answer. -/
def errorStatus : AppError → Nat
  | .peerIdentityMismatch => 409
  | .unsupportedRegionOperation => 501
  | .invalidRequest => 400
  | .protocolDefinition => 422
  | .unauthorized => 401
  | .forbidden => 403
  | .notFound => 404
  | .nodeUnavailable | .peerAccountUnavailable | .accountUnavailable | .upstreamUnavailable
  | .snapshotUnavailable | .masterUnavailable | .authUnavailable | .maintenance _ | .grpc 14 => 503
  | .timeout => 504
  | _ => 502

/-- What other crates decide: the syntax of uuids and versions, whether a value is a JSON object, and
the size of a serialized request. -/
structure Library (V : Type) where
  uuid : String → Bool
  canonicalUuid : String → Bool
  semver : String → Bool
  isObject : V → Bool
  requestSize : Request → Nat

/-- A peer node when a query reaches it: the status with which a layer rejects the query before its
handler, the node's own identity, and what its call meets. -/
structure PeerNode (V : Type) where
  rejected : Option Nat
  identity : Except AppError Identity
  call : SelectedEnv V
  maintenance : Bool

variable {V : Type} (L : Library V)

def reply (request : Request) (node : PeerNode V) : Except AppError V → Reply V
  | .ok data =>
    { requestId := request.requestId
      identity := request.identity
      outcome := .success data
      maintenance := node.maintenance }
  | .error e =>
    { requestId := request.requestId
      identity := request.identity
      outcome := .failure (Failure.ofError e)
      maintenance := match e with
        | .maintenance _ => true
        | _ => false }

/-- The handler of the peer route: a status and, with status 200, a reply; and what the node sent. -/
def query (request : Request) (node : PeerNode V) : (Nat × Option (Reply V)) × List Event :=
  match node.rejected with
  | some status => ((status, none), [])
  | none =>
    if !L.uuid request.requestId || request.requestId.utf8ByteSize != 36 then
      ((errorStatus .invalidRequest, none), [])
    else match request.operation.rpc, node.identity with
      | .error e, _ => ((errorStatus e, none), [])
      | .ok _, .error e => ((errorStatus e, none), [])
      | .ok route, .ok identity =>
        if identity ≠ request.identity then
          ((200, some
            { requestId := request.requestId
              identity := request.identity
              outcome := .failure .identityMismatch
              maintenance := node.maintenance }), [])
        else match callPeer identity.region.isGlobal route request.identity.protocolSha256 node.call [] with
          | (result, trace) => ((200, some (reply request node result)), trace)

inductive TransportError where
  | config
  | notSent
  | connect
  | timeout
  | transport
  | status (code : Nat)
  | protocol
  deriving DecidableEq, Repr

def preDispatchStatuses : List Nat := [400, 401, 404, 405, 413, 415, 422]

/-- Only these failures prove that the query was not submitted. -/
def TransportError.definitelyNotSent : TransportError → Bool
  | .config | .notSent | .connect => true
  | _ => false

/-- The query was submitted, but rejected before game dispatch. -/
def TransportError.rejectedBeforeDispatch : TransportError → Bool
  | .status code => preDispatchStatuses.contains code
  | _ => false

/-- What the network does with a query: it fails (with what `reqwest` reports), the deadline passes,
something on the way answers, the answer is not a reply, or the answer of the peer arrives. -/
inductive Network where
  | failed (isConnect isTimeout delivered : Bool)
  | expired (delivered : Bool)
  | replaced (status : Nat) (delivered : Bool)
  | garbled
  | intact
  deriving DecidableEq, Repr

def Network.delivered : Network → Bool
  | .failed _ _ delivered => delivered
  | .expired delivered => delivered
  | .replaced _ delivered => delivered
  | .garbled => true
  | .intact => true

def validateIdentity (identity : Identity) : Bool :=
  identity.contractVersion == 1 && identity.region != .cn && identity.environment != "" &&
    decide (identity.environment.utf8ByteSize ≤ 256) &&
    identity.environment.toList.all (fun c => isAsciiAlphanumeric c || c == '-') &&
    L.semver identity.clientVersion && digest identity.protocolSha256

/-- What the client makes of the answer of the peer itself. -/
def accept (request : Request) (answer : Nat × Option (Reply V)) : Except TransportError (Reply V) :=
  match answer with
  | (status, body) =>
    if status ≠ 200 then .error (.status status)
    else match body with
      | none => .error .protocol
      | some reply =>
        if reply.requestId ≠ request.requestId ∨ reply.identity ≠ request.identity then .error .protocol
        else match reply.outcome with
          | .success data => if L.isObject data then .ok reply else .error .protocol
          | .failure (.game status) => if 1 ≤ status ∧ status ≤ 16 then .ok reply else .error .protocol
          | .failure _ => .ok reply

def received (request : Request) (answer : Nat × Option (Reply V)) : Network → Except TransportError (Reply V)
  | .failed isConnect isTimeout _ =>
    .error (if isConnect then .connect else if isTimeout then .timeout else .transport)
  | .expired _ => .error .timeout
  | .replaced status _ => .error (if status = 200 then .protocol else .status status)
  | .garbled => .error .protocol
  | .intact => accept L request answer

/-- `peer_transport::Client::call`: the checks before anything is sent, then one POST. The trace is
that of the peer. -/
def clientCall (region : Region) (request : Request) (late : Bool) (network : Network) (node : PeerNode V) :
    Except TransportError (Reply V) × List Event :=
  match request.operation.rpc with
  | .error _ => (.error .config, [])
  | .ok route =>
    if !validateIdentity L request.identity || request.identity.region != region ||
        !(forFamily region.isGlobal).contains route || !L.canonicalUuid request.requestId then (.error .config, [])
    else if 16 * 1024 < L.requestSize request then (.error .config, [])
    else if late then (.error .notSent, [])
    else match query L request node with
      | (answer, trace) => (received L request answer network, if network.delivered then trace else [])

end SiriusProxy.Routing
