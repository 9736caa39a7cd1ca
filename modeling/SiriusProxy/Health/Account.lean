import SiriusProxy.Health.Path
import SiriusProxy.Login.State

namespace SiriusProxy

/-- Health of one account. `pathFailures` is the part of `failures` charged as path-class
faults during path streak `pathStreak`. -/
structure Health where
  failures : Nat := 0
  pathFailures : Nat := 0
  pathStreak : Nat := 0
  until_ : Option Instant := none
  thresholdUntil : Option Instant := none
  disabled : Bool := false
  deriving DecidableEq, Repr

namespace Health

/-- `Option<Instant>::max`, where `None` is least. -/
def maxInstant : Option Instant → Option Instant → Option Instant
  | none, b => b
  | some a, none => some a
  | some a, some b => some (max a b)

def cooldownUntil (h : Health) : Option Instant := maxInstant h.until_ h.thresholdUntil

def succeeded (h : Health) : Health :=
  { h with failures := 0, pathFailures := 0, until_ := none, thresholdUntil := none }

/-- The path-class share of a failure charged under `streak`. -/
def chargeStreak (streak : Nat) (h : Health) : Health :=
  if h.pathStreak = streak then { h with pathFailures := satSucc h.pathFailures }
  else { h with pathStreak := streak, pathFailures := 1 }

def transient (policy : PoolPolicy) (now : Instant) (streak : Option Nat) (h : Health) : Health :=
  let counted := { h with failures := satSucc h.failures }
  let charged := match streak with
    | some s => counted.chargeStreak s
    | none => counted
  if policy.failureThreshold ≤ charged.failures then
    { charged with thresholdUntil := some (now + fromSecs policy.cooldownSeconds) }
  else charged

def disable (h : Health) : Health := { h with disabled := true }

/-- The JP answer to gRPC 7 and 16. -/
def reject (h : Health) : Health := { h with disabled := true, failures := satSucc h.failures }

def coolDown (limit : Instant) (h : Health) : Health :=
  { h with until_ := maxInstant h.until_ (some limit) }

def revokePathFailures (streak : Nat) (policy : PoolPolicy) (h : Health) : Health :=
  if h.pathStreak ≠ streak ∨ h.pathFailures = 0 then h
  else
    let withdrawn := { h with failures := h.failures - h.pathFailures, pathFailures := 0 }
    if withdrawn.failures < policy.failureThreshold then { withdrawn with thresholdUntil := none }
    else withdrawn

def available (now : Instant) (h : Health) : Bool :=
  !h.disabled && (match h.cooldownUntil with
    | none => true
    | some limit => decide (limit ≤ now))

/-- The single action a reported outcome takes on the account's health. -/
inductive Event where
  | none
  | succeeded
  | transient (streak : Option Nat)
  | disable
  | reject
  | coolDown (limit : Instant)
  deriving DecidableEq, Repr

def apply (policy : PoolPolicy) (now : Instant) (h : Health) : Event → Health
  | .none => h
  | .succeeded => h.succeeded
  | .transient streak => h.transient policy now streak
  | .disable => h.disable
  | .reject => h.reject
  | .coolDown limit => h.coolDown limit

/-- `Health::path_fault`: the account pays only when the charge says so. -/
def pathFault : Charge → Event
  | .account streak => .transient streak
  | .path => .none

theorem transient_none_frame (policy : PoolPolicy) (now : Instant) (h : Health) :
    let r := h.transient policy now none
    r.failures = satSucc h.failures ∧ r.pathFailures = h.pathFailures ∧ r.pathStreak = h.pathStreak := by
  simp only [transient]
  split <;> exact ⟨rfl, rfl, rfl⟩

theorem transient_some_frame (policy : PoolPolicy) (now : Instant) (streak : Nat) (h : Health) :
    let r := h.transient policy now (some streak)
    r.failures = satSucc h.failures ∧ r.pathStreak = streak ∧
      r.pathFailures = if h.pathStreak = streak then satSucc h.pathFailures else 1 := by
  simp only [transient, chargeStreak]
  split <;> rename_i same <;> split <;> simp [same]

/-- A withdrawal that applies leaves nothing charged under the streak. -/
theorem revokePathFailures_frame (streak : Nat) (policy : PoolPolicy) (h : Health) :
    let r := h.revokePathFailures streak policy
    r.pathStreak = h.pathStreak ∧
      r.pathFailures = (if h.pathStreak = streak then 0 else h.pathFailures) ∧
      r.failures = (if h.pathStreak = streak then h.failures - h.pathFailures else h.failures) := by
  simp only [revokePathFailures]
  by_cases same : h.pathStreak = streak
  · by_cases zero : h.pathFailures = 0
    · simp [same, zero]
    · simp only [same, zero, ne_eq, not_true_eq_false, or_self, if_false, if_true]
      split <;> simp
  · simp [same]

end Health

end SiriusProxy
