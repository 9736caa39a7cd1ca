import SiriusProxy.Lib.Run
import SiriusProxy.Health.Signal

namespace SiriusProxy.Withdrawal
variable {ι : Type} [DecidableEq ι]

/-- An account with the failures its counter contains, newest first; a path-class failure
keeps the streak it was charged under. -/
structure Tracked where
  account : Account
  charged : List (Option Nat) := []
  deriving DecidableEq, Repr

/-- A call between its `charge()` and the end of its `settle_charge`. -/
structure Call (ι : Type) where
  account : ι
  charge : Charge
  landed : Bool
  deriving DecidableEq, Repr

/-- The game path, the accounts, the calls in flight, the attributions whose pool-wide
withdrawal is still to run, and every streak ever attributed to the path. -/
structure World (ι : Type) where
  path : PathHealth.State
  accounts : ι → Tracked
  calls : List (Call ι)
  revokes : List Nat
  attributed : List Nat

structure Setup where
  policy : PoolPolicy
  login : Option LoginConfig
  deriving DecidableEq, Repr

/-- The game path of a region tells accounts apart. -/
def Setup.path (cfg : Setup) : PathHealth.Settings := PathHealth.new cfg.policy true

/-- One atomic step: a mutex section of the path, the pool-wide withdrawal of `record_path`,
the landing of a report or the settling of its charge. -/
inductive Label (ι : Type) where
  | record (now : Instant) (source : Option String) (outcome : PathHealth.Outcome)
  | revoke (streak : Nat)
  | admitCall (now : Instant)
  | dropTicket (probe : Bool)
  | charge (account : ι)
  | report (call : Call ι) (now : Instant) (result : Except AppError Unit) (code : Option String)
  | settle (call : Call ι)
  | disable (account : ι)
  | coolDown (account : ι) (limit : Instant)

/-- Takes `n` failures out of a counter, those of the streak first. -/
def withdraw (streak : Nat) : Nat → List (Option Nat) → List (Option Nat)
  | 0, charged => charged
  | n + 1, charged =>
    withdraw streak n (if some streak ∈ charged then charged.erase (some streak) else charged.tail)

namespace Tracked

/-- What an action on the health does to the failures the counter contains. A saturated
counter takes no further failure in. -/
def count (t : Tracked) : Health.Event → List (Option Nat)
  | .succeeded => []
  | .transient streak => if t.account.health.failures < u32Max then streak :: t.charged else t.charged
  | .reject => if t.account.health.failures < u32Max then none :: t.charged else t.charged
  | .none => t.charged
  | .disable => t.charged
  | .coolDown _ => t.charged

def report (cfg : Setup) (now : Instant) (result : Except AppError Unit) (code : Option String)
    (charge : Charge) (t : Tracked) : Tracked where
  account := (t.account.report cfg.policy cfg.login now result code charge).1
  charged := t.count (t.account.reportSignal cfg.policy cfg.login now result code charge).2.1

def revoke (policy : PoolPolicy) (streak : Nat) (t : Tracked) : Tracked where
  account := t.account.revokePathFailures streak policy
  charged := if t.account.health.pathStreak = streak then
      withdraw streak t.account.health.pathFailures t.charged
    else t.charged

def adjust (f : Health → Health) (t : Tracked) : Tracked :=
  { t with account := { t.account with health := f t.account.health } }

end Tracked

namespace World

def setAccount (w : World ι) (i : ι) (t : Tracked) : World ι :=
  { w with accounts := Function.update w.accounts i t }

/-- `GameClient::record_path` on the game path up to its pool-wide withdrawal. -/
def record (cfg : Setup) (now : Instant) (source : Option String) (outcome : PathHealth.Outcome)
    (w : World ι) : World ι :=
  let (path, change) := PathHealth.record cfg.path now source outcome w.path
  { w with
    path := path
    revokes := change.attributed.toList ++ w.revokes
    attributed := change.attributed.toList ++ w.attributed }

/-- `GameClient::settle_charge`: only the last attributed streak is looked at. -/
def settleCharge (cfg : Setup) (call : Call ι) (w : World ι) : World ι :=
  match call.charge with
  | .account (some streak) =>
    if PathHealth.attributedTo w.path streak then
      w.setAccount call.account ((w.accounts call.account).revoke cfg.policy streak)
    else w
  | _ => w

end World

def step (cfg : Setup) (w : World ι) : Label ι → Option (World ι)
  | .record now source outcome => some (w.record cfg now source outcome)
  | .revoke streak =>
    if streak ∈ w.revokes then
      some { w with
        accounts := fun i => (w.accounts i).revoke cfg.policy streak
        revokes := w.revokes.erase streak }
    else none
  | .admitCall now => (PathHealth.admitCall now w.path).map fun admitted => { w with path := admitted.1 }
  | .dropTicket probe => some { w with path := PathHealth.dropTicket probe w.path }
  | .charge i =>
    some { w with calls := { account := i, charge := PathHealth.charge w.path, landed := false } :: w.calls }
  | .report call now result code =>
    if call ∈ w.calls ∧ call.landed = false then
      some { w.setAccount call.account ((w.accounts call.account).report cfg now result code call.charge) with
        calls := { call with landed := true } :: w.calls.erase call }
    else none
  | .settle call =>
    if call ∈ w.calls ∧ call.landed = true then
      some { w.settleCharge cfg call with calls := w.calls.erase call }
    else none
  | .disable i => some (w.setAccount i ((w.accounts i).adjust Health.disable))
  | .coolDown i limit => some (w.setAccount i ((w.accounts i).adjust (Health.coolDown limit)))

/-- Accounts as loaded: their health and the path's are in the default state. -/
def initial (accounts : ι → Account) : World ι where
  path := {}
  accounts := fun i => { account := { accounts i with health := {} } }
  calls := []
  revokes := []
  attributed := []

/-- No call between its charge and its settlement, no `record_path` before its withdrawal. -/
def Quiescent (w : World ι) : Prop := w.calls = [] ∧ w.revokes = []

/-- Nothing charged under an attributed streak is left on any account. -/
def Withdrawn (w : World ι) : Prop :=
  ∀ i, ∀ streak ∈ w.attributed,
    ¬ (0 < (w.accounts i).account.health.pathFailures ∧ (w.accounts i).account.health.pathStreak = streak) ∧
      some streak ∉ (w.accounts i).charged

/-- A streak whose charges may still have to be withdrawn: it is in progress, or it was
attributed at some time. -/
def Live (w : World ι) (streak : Nat) : Prop :=
  PathHealth.InProgress w.path streak ∨ streak ∈ w.attributed

/-- The steps that keep track of every live charge. A charge lands on an account that carries
charges of another streak only when that streak is over without attribution; and a charge still
carried when it is settled belongs to no attributed streak but the last one. -/
def Tracks (cfg : Setup) (w : World ι) : Label ι → Prop
  | .report call now result code =>
    ∀ streak, ((w.accounts call.account).account.reportSignal cfg.policy cfg.login now result code
        call.charge).2.1 = .transient (some streak) →
      (w.accounts call.account).account.health.pathFailures = 0 ∨
        (w.accounts call.account).account.health.pathStreak = streak ∨
        ¬ Live w (w.accounts call.account).account.health.pathStreak
  | .settle call =>
    ∀ streak, call.charge = .account (some streak) → streak ∈ w.attributed →
      0 < (w.accounts call.account).account.health.pathFailures →
      (w.accounts call.account).account.health.pathStreak = streak → w.path.lastAttributed = streak
  | _ => True

end SiriusProxy.Withdrawal
