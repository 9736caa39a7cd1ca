import Mathlib.Tactic.SplitIfs
import SiriusProxy.Health.Account

namespace SiriusProxy

structure GlobalAccount where
  sdk : SdkAccount
  expectedPlayerId : Option String := none
  state : LoginState := {}
  deriving DecidableEq, Repr

inductive Source where
  | static (playerId credential : String)
  | global (account : GlobalAccount)
  deriving DecidableEq, Repr

structure Account where
  name : String
  source : Source
  active : Nat := 0
  health : Health := {}
  deriving DecidableEq, Repr

def versionSignal (code : Option String) : Bool :=
  code == some masterVersionMismatch || code == some clientUpdateRequired

/-- The gRPC status an error carries, if it carries one. -/
def AppError.grpcStatus : AppError → Option Nat
  | .grpc status => some status
  | .maintenance status => some status
  | _ => none

/-- The codes `global_signal` reads; anything else counts as no code. -/
def boundedCode (code : String) : Bool :=
  decide (code.utf8ByteSize ≤ 64) && code.toList.all fun c => isAsciiUpper c || isAsciiDigit c || c == '_'

/-- What a signal does besides the health action: the login state, and the generation of the
shared SDK session it marks stale. -/
structure Signalled where
  state : LoginState
  event : Health.Event := .none
  stale : Option Nat := none
  deriving DecidableEq, Repr

/-- The session is dropped and the invalidation counted; with `sdkStale` the SDK generation
of the last login is marked stale first. -/
def invalidate (sdkStale : Bool) (s : LoginState) : Signalled where
  state := { s with session := none, invalidations := satSucc s.invalidations }
  stale := if sdkStale then some s.sdkGeneration else none

/-- An invalidation repeated right after a fresh login needs an operator. -/
def invalidateOrDisable (sdkStale : Bool) (s : LoginState) : Signalled :=
  let dropped := invalidate sdkStale s
  if 2 ≤ dropped.state.invalidations then { dropped with event := .disable } else dropped

def concurrentDevice (policy : PoolPolicy) (login : LoginConfig) (now : Instant) (s : LoginState) : Signalled :=
  let pruned := (invalidate false s).state.prune now
  let counted := { pruned with concurrentDevice := pruned.concurrentDevice ++ [now] }
  { state := counted
    event := if login.concurrentDeviceLimit ≤ counted.concurrentDevice.length then .disable
      else .coolDown (now + fromSecs policy.cooldownSeconds) }

/-- The branch taken without an application code. -/
def statusSignal (error : AppError) (charge : Charge) (s : LoginState) : Signalled :=
  match error.grpcStatus with
  | some 16 => invalidateOrDisable true s
  | some 7 => { state := s, event := .disable }
  | some 14 => { state := s, event := Health.pathFault charge }
  | some 8 => { state := s, event := .transient none }
  | some 13 => { state := s, event := .transient none }
  | some _ => { state := s }
  | none =>
    match error with
    | .timeout | .transport | .protocol => { state := s, event := Health.pathFault charge }
    | _ => { state := s }

def codeSignal (policy : PoolPolicy) (login : LoginConfig) (now : Instant) (error : AppError)
    (charge : Charge) (s : LoginState) (code : String) : Signalled :=
  if startsWith code "BAN_" then { state := { s with session := none }, event := .disable }
  else if startsWith code "AEGIS_" then
    { state := s, event := .coolDown (now + fromSecs login.aegisCooldownSeconds) }
  else if code = "CONCURRENT_DEVICE" then concurrentDevice policy login now s
  else if startsWith code "TOKEN_" || startsWith code "PLAYER_NOT_" then
    invalidateOrDisable (startsWith code "TOKEN_") s
  else if code = "UNDER_MAINTENANCE" then { state := s }
  else if versionSignal (some code) then { state := s }
  else statusSignal error charge s

def globalSignal (policy : PoolPolicy) (login : LoginConfig) (now : Instant)
    (result : Except AppError Unit) (code : Option String) (charge : Charge) (s : LoginState) : Signalled :=
  match result with
  | .ok _ =>
    { state := { s with invalidations := 0, lastErrorCode := none, lastSdkCode := none }
      event := .succeeded }
  | .error error =>
    match code.filter boundedCode with
    | some c =>
      codeSignal policy login now error charge { s with lastErrorCode := some c, lastSdkCode := none } c
    | none => statusSignal error charge s

/-- The health action of a call outcome on a JP account. -/
def staticReport (result : Except AppError Unit) (code : Option String) (charge : Charge) : Health.Event :=
  if code = some "UNDER_MAINTENANCE" ∨ versionSignal code then .none
  else
    match result with
    | .ok _ => .succeeded
    | .error (.grpc 7) => .reject
    | .error (.grpc 16) => .reject
    | .error .timeout => Health.pathFault charge
    | .error .transport => Health.pathFault charge
    | .error .protocol => Health.pathFault charge
    | .error (.grpc 14) => Health.pathFault charge
    | .error (.grpc 8) => .transient none
    | .error (.grpc 13) => .transient none
    | .error _ => .none

namespace Account

/-- The health action `Lease::report` takes on the account, with the login state it leaves
and the SDK generation it marks stale. -/
def reportSignal (policy : PoolPolicy) (login : Option LoginConfig) (now : Instant)
    (result : Except AppError Unit) (code : Option String) (charge : Charge) (a : Account) :
    Source × Health.Event × Option Nat :=
  match login, a.source with
  | some config, .global g =>
    let signalled := globalSignal policy config now result code charge g.state
    (.global { g with state := signalled.state }, signalled.event, signalled.stale)
  | _, source => (source, staticReport result code charge, none)

def report (policy : PoolPolicy) (login : Option LoginConfig) (now : Instant)
    (result : Except AppError Unit) (code : Option String) (charge : Charge) (a : Account) :
    Account × Option Nat :=
  let (source, event, stale) := a.reportSignal policy login now result code charge
  ({ a with source := source, health := a.health.apply policy now event }, stale)

def revokePathFailures (streak : Nat) (policy : PoolPolicy) (a : Account) : Account :=
  { a with health := a.health.revokePathFailures streak policy }

end Account

theorem invalidateOrDisable_event (sdkStale : Bool) (s : LoginState) :
    (invalidateOrDisable sdkStale s).event = .none ∨ (invalidateOrDisable sdkStale s).event = .disable := by
  by_cases repeated : 2 ≤ (invalidate sdkStale s).state.invalidations
  · exact Or.inr (by simp only [invalidateOrDisable, if_pos repeated])
  · refine Or.inl ?_
    simp only [invalidateOrDisable, if_neg repeated]
    rfl

theorem pathFault_streak {charge : Charge} {streak : Nat}
    (landed : Health.pathFault charge = .transient (some streak)) : charge = .account (some streak) := by
  cases charge with
  | account owner =>
    cases landed
    rfl
  | path => cases landed

theorem statusSignal_streak {error : AppError} {charge : Charge} {s : LoginState} {streak : Nat}
    (landed : (statusSignal error charge s).event = .transient (some streak)) :
    charge = .account (some streak) := by
  unfold statusSignal at landed
  split at landed
  · rcases invalidateOrDisable_event true s with quiet | disabled
    · cases quiet.symm.trans landed
    · cases disabled.symm.trans landed
  · cases landed
  · exact pathFault_streak landed
  · cases landed
  · cases landed
  · cases landed
  · split at landed
    · exact pathFault_streak landed
    · exact pathFault_streak landed
    · exact pathFault_streak landed
    · cases landed

theorem codeSignal_streak {policy : PoolPolicy} {login : LoginConfig} {now : Instant} {error : AppError}
    {charge : Charge} {s : LoginState} {code : String} {streak : Nat}
    (landed : (codeSignal policy login now error charge s code).event = .transient (some streak)) :
    charge = .account (some streak) := by
  unfold codeSignal at landed
  split_ifs at landed
  · simp only [concurrentDevice] at landed
    split at landed <;> cases landed
  · rcases invalidateOrDisable_event (startsWith code "TOKEN_") s with quiet | disabled
    · cases quiet.symm.trans landed
    · cases disabled.symm.trans landed
  · exact statusSignal_streak landed

theorem globalSignal_streak {policy : PoolPolicy} {login : LoginConfig} {now : Instant}
    {result : Except AppError Unit} {code : Option String} {charge : Charge} {s : LoginState} {streak : Nat}
    (landed : (globalSignal policy login now result code charge s).event = .transient (some streak)) :
    charge = .account (some streak) := by
  unfold globalSignal at landed
  split at landed
  · cases landed
  · split at landed
    · exact codeSignal_streak landed
    · exact statusSignal_streak landed

theorem staticReport_streak {result : Except AppError Unit} {code : Option String} {charge : Charge}
    {streak : Nat} (landed : staticReport result code charge = .transient (some streak)) :
    charge = .account (some streak) := by
  unfold staticReport at landed
  split at landed
  · cases landed
  · split at landed <;> first | cases landed | exact pathFault_streak landed

/-- A report counts a failure under a streak only when the call was charged for that streak,
whatever the account kind, the outcome and the application code. -/
theorem Account.reportSignal_streak {policy : PoolPolicy} {login : Option LoginConfig} {now : Instant}
    {result : Except AppError Unit} {code : Option String} {charge : Charge} {a : Account} {streak : Nat}
    (landed : (a.reportSignal policy login now result code charge).2.1 = .transient (some streak)) :
    charge = .account (some streak) := by
  unfold Account.reportSignal at landed
  split at landed
  · exact globalSignal_streak landed
  · exact staticReport_streak landed

end SiriusProxy
