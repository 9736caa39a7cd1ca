import SiriusProxy.Routing.Peer

namespace SiriusProxy.Routing

structure TargetConfig where
  name : String
  priority : Int := 10
  deriving DecidableEq, Repr

/-- The settings of the router that decide order and health. -/
structure Config where
  localPriority : Option Int := some 0
  targets : List TargetConfig := []
  failureThreshold : Nat := 3
  cooldownMs : Nat := 30000
  deriving DecidableEq, Repr

structure Target where
  name : String
  priority : Int
  remote : Bool
  deriving DecidableEq, Repr

structure Health where
  failures : Nat := 0
  openUntil : Option Instant := none
  probing : Bool := false
  deriving DecidableEq, Repr

/-- Whether a call is admitted to a target now, as a probe or not. -/
def Health.admitCall (now : Instant) (h : Health) : Option (Bool × Health) :=
  match h.openUntil with
  | some until_ => if now < until_ ∨ h.probing then none else some (true, { h with probing := true })
  | none => some (false, h)

/-- `Permit::finish` without the drop of the permit. -/
def Permit.finish (config : Config) (now : Instant) (failed : Bool) (h : Health) : Health :=
  if failed then
    let failures := satSucc h.failures
    if config.failureThreshold ≤ failures then
      { h with failures := failures, openUntil := some (now + config.cooldownMs * 1000000) }
    else { h with failures := failures }
  else { h with failures := 0, openUntil := none }

/-- `Drop for Permit`. -/
def Permit.drop (probe : Bool) (h : Health) : Health := if probe then { h with probing := false } else h

/-- The router finishes a permit and drops it at once. -/
def Health.finish (config : Config) (now : Instant) (probe failed : Bool) (h : Health) : Health :=
  Permit.drop probe (Permit.finish config now failed h)

def Config.local_ (config : Config) : List Target :=
  (config.localPriority.map fun priority => { name := "local", priority := priority, remote := false }).toList

/-- Local first, then the configured remote order. -/
def Config.listed (config : Config) : List Target :=
  config.local_ ++ config.targets.map fun t => { name := t.name, priority := t.priority, remote := true }

/-- The stable sort of `Router::new`. -/
def Config.sorted (config : Config) : List Target :=
  config.listed.mergeSort fun a b => decide (a.priority ≤ b.priority)

/-- What one visit of a target meets: its health and the time then, the local call with the cut of the
router's deadline, or the network and the peer. -/
structure TargetEnv (V : Type) where
  pastDeadline : Bool
  health : Health
  now : Instant
  finished : Instant
  cut : Option Nat
  call : SelectedEnv V
  late : Bool
  network : Network
  node : PeerNode V

/-- A target that was tried: its place in the order, its health afterwards, and what its node sent. -/
structure Visit where
  index : Nat
  target : Target
  health : Health
  trace : List Event

variable {V : Type}

/-- The outcomes of a peer after which the query provably was not executed. -/
def Outcome.notExecuted : Outcome V → Bool
  | .failure .identityMismatch | .failure .unsupportedOperation | .failure .unavailableBeforeDispatch => true
  | _ => false

/-- The same for the local target. -/
def notExecuted : Except AppError V → Bool
  | .error .peerIdentityMismatch | .error .peerAccountUnavailable | .error .unsupportedRegionOperation => true
  | _ => false

def Reply.result (r : Reply V) : Except AppError V :=
  match r.outcome with
  | .success data => .ok data
  | .failure kind => .error (failureError r.maintenance kind)

variable (L : Library V) (config : Config) (region : Region) (request : Request) (route : Route)

/-- The local target: the result, whether it proves that nothing was executed, and the trace. -/
def callLocal (env : TargetEnv V) : Except AppError V × Bool × List Event :=
  match timeoutAt env.cut (callPeer region.isGlobal route request.identity.protocolSha256 env.call) [] with
  | (result, trace) => (result, notExecuted result, trace)

def transportResult : TransportError → AppError
  | .timeout | .notSent => .timeout
  | .protocol => .protocol
  | _ => .transport

def callRemote (env : TargetEnv V) : Except AppError V × Bool × List Event :=
  match clientCall L region request env.late env.network env.node with
  | (.ok reply, trace) => (reply.result, reply.outcome.notExecuted, trace)
  | (.error e, trace) => (.error (transportResult e), e.definitelyNotSent || e.rejectedBeforeDispatch, trace)

def callTarget (target : Target) (env : TargetEnv V) : Except AppError V × Bool × List Event :=
  if target.remote then callRemote L region request env else callLocal region request route env

def targetFault : Except AppError V → Bool
  | .error .transport | .error .proxy | .error .timeout | .error .protocol | .error .peerIdentityMismatch
  | .error .peerAccountUnavailable | .error .accountUnavailable | .error .unsupportedRegionOperation => true
  | _ => false

/-- The loop of `Router::call_inner` over the targets from place `index` on. -/
def callTargets (envs : Nat → TargetEnv V) :
    Nat → List Target → Except AppError V → Except AppError V × List Visit
  | _, [], last => (last, [])
  | index, target :: rest, last =>
    let env := envs index
    if env.pastDeadline then (.error .timeout, [])
    else match env.health.admitCall env.now with
      | none => callTargets envs (index + 1) rest last
      | some (probe, health) => match callTarget L region request route target env with
        | (result, notExecuted, trace) =>
          let fault := targetFault result
          let visit :=
            { index := index
              target := target
              health := health.finish config env.finished probe fault
              trace := trace }
          if !fault || (!notExecuted && route.authenticated) then (result, [visit])
          else match callTargets envs (index + 1) rest result with
            | (final, visits) => (final, visit :: visits)

/-- `Router::call_inner`; `admitted` tells whether the call got one of the router's slots in time. -/
def callInner (admitted : Bool) (envs : Nat → TargetEnv V) : Except AppError V × List Visit :=
  if admitted then callTargets L config region request route envs 0 config.sorted (.error .nodeUnavailable)
  else (.error .timeout, [])

end SiriusProxy.Routing
