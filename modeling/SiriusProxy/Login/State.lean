import SiriusProxy.Error

namespace SiriusProxy

/-- The SDK identity of an account: one Bilibili account, named by its uid. -/
structure SdkAccount where
  uid : String
  accessKey : String
  idToken : String
  mid : Option String
  deriving DecidableEq, Repr

def day : Nat := fromSecs 86400

/-- The `global_login` settings that decide when and how an account logs in. -/
structure LoginConfig where
  sdkTimeoutMs : Nat := 15000
  loginMinIntervalSeconds : Nat := 300
  maxLoginsPerDay : Nat := 24
  aegisCooldownSeconds : Nat := 900
  concurrentDeviceLimit : Nat := 3
  sdkRefusalRetrySeconds : Nat := 86400
  sdkKeepaliveSeconds : Nat := 20 * 86400
  deriving DecidableEq, Repr

structure Session where
  playerId : String
  credential : String
  isNewUser : Bool
  cpServerName : String
  deriving DecidableEq, Repr

/-- Login lifecycle of one Global account; the deques are lists with the front first. -/
structure LoginState where
  session : Option Session := none
  sdkGeneration : Nat := 0
  attempts : List Instant := []
  lastLoginAt : Option Instant := none
  lastErrorCode : Option String := none
  lastSdkCode : Option Int := none
  invalidations : Nat := 0
  concurrentDevice : List Instant := []
  deriving DecidableEq, Repr

namespace LoginState

/-- Pops the front while it is at least a day old; `now - t` is the saturating difference. -/
def dropOld (now : Instant) (times : List Instant) : List Instant :=
  times.dropWhile fun t => decide (day ≤ now - t)

def prune (now : Instant) (s : LoginState) : LoginState :=
  { s with attempts := dropOld now s.attempts, concurrentDevice := dropOld now s.concurrentDevice }

/-- When the next login attempt is allowed, if not now. Pruning is part of the answer. -/
def nextAllowed (now : Instant) (config : LoginConfig) (s : LoginState) : LoginState × Option Instant :=
  let pruned := s.prune now
  let byInterval := (pruned.attempts.getLast?.map (· + fromSecs config.loginMinIntervalSeconds)).filter
    (fun t => decide (now < t))
  let byCap := if config.maxLoginsPerDay ≤ pruned.attempts.length
    then pruned.attempts.head?.map (· + day) else none
  (pruned, (byInterval.toList ++ byCap.toList).max?)

end LoginState

end SiriusProxy
