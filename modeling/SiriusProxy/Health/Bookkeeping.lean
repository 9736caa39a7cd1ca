import Mathlib.Data.List.Count
import SiriusProxy.Lib.Run
import SiriusProxy.Health.Signal

namespace SiriusProxy

namespace Health

/-- A transient failure counts once and touches the deadline of the threshold only when the count reaches it; the
other deadline and the flag stay as they are. -/
theorem transient_threshold_frame (policy : PoolPolicy) (now : Instant) (streak : Option Nat) (h : Health) :
    let r := h.transient policy now streak
    r.failures = satSucc h.failures ∧ r.disabled = h.disabled ∧ r.until_ = h.until_ ∧
      r.thresholdUntil = if policy.failureThreshold ≤ satSucc h.failures
        then some (now + fromSecs policy.cooldownSeconds) else h.thresholdUntil := by
  cases streak with
  | none =>
    simp only [transient]
    split <;> exact ⟨rfl, rfl, rfl, rfl⟩
  | some s =>
    simp only [transient, chargeStreak]
    split <;> split <;> simp_all

theorem revokePathFailures_threshold_frame (streak : Nat) (policy : PoolPolicy) (h : Health) :
    let r := h.revokePathFailures streak policy
    r.disabled = h.disabled ∧ r.until_ = h.until_ ∧
      r.thresholdUntil = if h.pathStreak = streak ∧ h.pathFailures ≠ 0 ∧ r.failures < policy.failureThreshold
        then none else h.thresholdUntil := by
  simp only [revokePathFailures]
  split_ifs <;> simp_all

end Health

namespace Bookkeeping

/-- A counted failure of the account, with the path streak it was charged under. -/
structure Failure where
  streak : Option Nat
  withdrawn : Bool := false
  deriving DecidableEq, Repr

/-- The failures of a history that still count. -/
def outstanding (history : List Failure) : Nat := history.countP fun f => !f.withdrawn

/-- Withdraws the current run of a streak: the failures, newest first, charged under it before
one was charged under another streak. -/
def withdraw (streak : Nat) : List Failure → List Failure
  | [] => []
  | f :: older =>
    match f.streak with
    | none => f :: withdraw streak older
    | some s => if s = streak then { f with withdrawn := true } :: withdraw streak older else f :: older

/-- The failures of the current run of a streak that still count. -/
def due (streak : Nat) : List Failure → Nat
  | [] => 0
  | f :: older =>
    match f.streak with
    | none => due streak older
    | some s => if s = streak then due streak older + (if f.withdrawn then 0 else 1) else 0

/-- An account with its failures since the last success, newest first, and the latest time a
call was reported at. -/
structure Books where
  account : Account
  history : List Failure := []
  clock : Instant := 0
  deriving DecidableEq, Repr

inductive Label where
  | report (now : Instant) (result : Except AppError Unit) (code : Option String) (charge : Charge)
  | disable
  | coolDown (limit : Instant)
  | revoke (streak : Nat)

/-- The failures since the last success once an action was taken. -/
def note (history : List Failure) : Health.Event → List Failure
  | .succeeded => []
  | .transient streak => { streak := streak } :: history
  | .reject => { streak := none } :: history
  | .none => history
  | .disable => history
  | .coolDown _ => history

/-- The action that a label takes on the health; a revocation is none. -/
def action (policy : PoolPolicy) (login : Option LoginConfig) (b : Books) : Label → Health.Event
  | .report now result code charge => (b.account.reportSignal policy login now result code charge).2.1
  | .disable => .disable
  | .coolDown limit => .coolDown limit
  | .revoke _ => .none

/-- One section of the account's health lock. The clock never runs backwards. -/
def step (policy : PoolPolicy) (login : Option LoginConfig) (b : Books) : Label → Option Books
  | .report now result code charge =>
    if b.clock ≤ now then
      some {
        account := (b.account.report policy login now result code charge).1
        history := note b.history (action policy login b (.report now result code charge))
        clock := now }
    else none
  | .disable => some { b with account := { b.account with health := b.account.health.disable } }
  | .coolDown limit => some { b with account := { b.account with health := b.account.health.coolDown limit } }
  | .revoke streak =>
    some { b with account := b.account.revokePathFailures streak policy, history := withdraw streak b.history }

theorem outstanding_cons (streak : Option Nat) (history : List Failure) :
    outstanding ({ streak := streak } :: history) = outstanding history + 1 :=
  List.countP_cons_of_pos rfl

/-- What a withdrawal takes from the failures that count are the due ones of the current run, no more and no fewer.
By induction along the history. -/
theorem outstanding_withdraw (streak : Nat) (history : List Failure) :
    outstanding (withdraw streak history) + due streak history = outstanding history := by
  induction history with
  | nil => rfl
  | cons f older ih =>
    obtain ⟨charged, withdrawn⟩ := f
    unfold outstanding at ih ⊢
    cases charged with
    | none =>
      simp only [withdraw, due, List.countP_cons]
      omega
    | some s =>
      simp only [withdraw, due]
      split_ifs with same gone
      · simp only [List.countP_cons, gone]
        simpa using ih
      · simp only [List.countP_cons, gone]
        simp only [Bool.not_true, Bool.not_false, if_true, Bool.false_eq_true, if_false]
        omega
      · rfl

/-- Nothing is due, nothing changes: the failures of the run have been withdrawn before. -/
theorem withdraw_of_due {streak : Nat} {history : List Failure} (none_due : due streak history = 0) :
    withdraw streak history = history := by
  induction history with
  | nil => rfl
  | cons f older ih =>
    obtain ⟨charged, withdrawn⟩ := f
    cases charged with
    | none =>
      simp only [withdraw, due] at none_due ⊢
      rw [ih none_due]
    | some s =>
      simp only [withdraw, due] at none_due ⊢
      by_cases same : s = streak
      · rw [if_pos same] at none_due ⊢
        cases withdrawn with
        | true => rw [ih none_due]
        | false => exact absurd none_due (Nat.succ_ne_zero _)
      · rw [if_neg same]

/-- After its withdrawal a streak is due nothing. The run of another streak is not reached by it. -/
theorem due_withdraw (streak other : Nat) (history : List Failure) :
    due other (withdraw streak history) = if other = streak then 0 else due other history := by
  induction history with
  | nil => simp only [withdraw, due, ite_self]
  | cons f older ih =>
    obtain ⟨charged, withdrawn⟩ := f
    cases charged with
    | none => simpa only [withdraw, due] using ih
    | some s =>
      simp only [withdraw]
      split_ifs at ih ⊢ with same here here
      · subst same here
        simp only [due, if_true, ih]
      · have differs : ¬ s = other := fun eq => here (eq.symm.trans same)
        simp only [due, if_neg differs]
      · subst here
        simp only [due, if_neg same]
      · rfl

/-- What the health of an account says of its history. -/
structure Balanced (policy : PoolPolicy) (h : Health) (history : List Failure) (clock : Instant) : Prop where
  bounded : h.failures ≤ u32Max
  total : h.failures = outstanding history
  share : h.pathFailures = due h.pathStreak history
  passed : ∀ streak, streak ≠ h.pathStreak → due streak history = 0
  threshold : h.disabled = false → (h.thresholdUntil.isSome ↔ policy.failureThreshold ≤ h.failures)
  deadline : ∀ limit ∈ h.thresholdUntil, limit ≤ clock + fromSecs policy.cooldownSeconds

namespace Balanced
variable {policy : PoolPolicy} {h : Health} {history : List Failure} {clock now : Instant}

/-- The clock only bounds the deadline from above, so a later clock will do. -/
theorem later (balanced : Balanced policy h history clock) (forward : clock ≤ now) :
    Balanced policy h history now where
  bounded := balanced.bounded
  total := balanced.total
  share := balanced.share
  passed := balanced.passed
  threshold := balanced.threshold
  deadline := by
    intro limit set
    exact Nat.le_trans (balanced.deadline limit set) (Nat.add_le_add_right forward _)

theorem part (balanced : Balanced policy h history clock) : h.pathFailures ≤ h.failures := by
  rw [balanced.share, balanced.total, ← outstanding_withdraw h.pathStreak history]
  exact Nat.le_add_left _ _

/-- A success clears the counters, the deadlines and the history together. -/
theorem succeeded (policy : PoolPolicy) (h : Health) (clock : Instant) (positive : 1 ≤ policy.failureThreshold) :
    Balanced policy h.succeeded [] clock where
  bounded := Nat.zero_le _
  total := rfl
  share := rfl
  passed := fun _ _ => rfl
  threshold := by
    intro _
    refine iff_of_false Bool.false_ne_true ?_
    change ¬ policy.failureThreshold ≤ 0
    omega
  deadline := by
    rintro limit ⟨⟩

theorem coolDown (balanced : Balanced policy h history clock) (limit : Instant) :
    Balanced policy (h.coolDown limit) history clock :=
  ⟨balanced.bounded, balanced.total, balanced.share, balanced.passed, balanced.threshold, balanced.deadline⟩

/-- Disabling changes the flag only. The clause on the threshold is about accounts that are not disabled. -/
theorem disable (balanced : Balanced policy h history clock) : Balanced policy h.disable history clock where
  bounded := balanced.bounded
  total := balanced.total
  share := balanced.share
  passed := balanced.passed
  threshold := nofun
  deadline := balanced.deadline

/-- A rejected credential counts one failure that no streak can withdraw. -/
theorem reject (balanced : Balanced policy h history clock) (room : h.failures < u32Max) :
    Balanced policy h.reject ({ streak := none } :: history) clock where
  bounded := satSucc_le _
  total := by
    change satSucc h.failures = _
    rw [satSucc_of_lt room, balanced.total, outstanding_cons]
  share := balanced.share
  passed := balanced.passed
  threshold := nofun
  deadline := balanced.deadline

/-- A transient failure is counted under its streak, if it has one. With another streak than the one before, the
share starts again from one, which is what `due` says of a run that another streak has ended. -/
theorem transient (balanced : Balanced policy h history clock) (room : h.failures < u32Max) (now : Instant)
    (forward : clock ≤ now) (streak : Option Nat) :
    Balanced policy (h.transient policy now streak) ({ streak := streak } :: history) now := by
  obtain ⟨failures, disabled, -, thresholdUntil⟩ := h.transient_threshold_frame policy now streak
  rw [satSucc_of_lt room] at failures thresholdUntil
  have total : (h.transient policy now streak).failures = outstanding ({ streak := streak } :: history) := by
    rw [failures, balanced.total, outstanding_cons]
  have small := balanced.part
  refine ⟨?_, total, ?_, ?_, ?_, ?_⟩
  · rw [failures]
    exact room
  · cases streak with
    | none =>
      obtain ⟨-, pathFailures, pathStreak⟩ := h.transient_none_frame policy now
      rw [pathFailures, pathStreak]
      exact balanced.share
    | some s =>
      obtain ⟨-, pathStreak, pathFailures⟩ := h.transient_some_frame policy now s
      rw [pathFailures, pathStreak]
      simp only [due, if_true, Bool.false_eq_true, if_false]
      split_ifs with same
      · rw [satSucc_of_lt (by omega), balanced.share, same]
      · rw [balanced.passed s (Ne.symm same)]
  · intro other differs
    cases streak with
    | none =>
      rw [(h.transient_none_frame policy now).2.2] at differs
      exact balanced.passed other differs
    | some s =>
      rw [(h.transient_some_frame policy now s).2.1] at differs
      exact if_neg (Ne.symm differs)
  · intro enabled
    rw [disabled] at enabled
    have before := balanced.threshold enabled
    rw [thresholdUntil, failures]
    split_ifs with reached
    · exact iff_of_true rfl reached
    · rw [before]
      exact iff_of_false (by omega) reached
  · intro limit set
    rw [thresholdUntil] at set
    split_ifs at set with reached
    · cases set
      exact Nat.le_refl _
    · exact (balanced.later forward).deadline limit set

/-- A revocation that finds nothing charged to the run leaves the history alone too. -/
theorem idle (balanced : Balanced policy h history clock) {streak : Nat}
    (nothing : h.pathStreak ≠ streak ∨ h.pathFailures = 0) : due streak history = 0 := by
  by_cases same : h.pathStreak = streak
  · rw [← same, ← balanced.share]
    exact nothing.resolve_left (not_not_intro same)
  · exact balanced.passed streak (Ne.symm same)

/-- The counter goes down by the share of the streak, if that is the streak of the counter, and by nothing
otherwise; both are what is due. -/
theorem revoke_failures (balanced : Balanced policy h history clock) (streak : Nat) :
    (h.revokePathFailures streak policy).failures = outstanding (withdraw streak history) := by
  have count := outstanding_withdraw streak history
  have share := balanced.share
  have total := balanced.total
  rw [(h.revokePathFailures_frame streak policy).2.2]
  split_ifs with same
  · rw [same] at share
    omega
  · have none_due := balanced.passed streak (Ne.symm same)
    omega

/-- A withdrawal takes the same failures from the counters and from the history. The threshold's deadline goes only
if the count falls below it. -/
theorem revoke (balanced : Balanced policy h history clock) (streak : Nat) :
    Balanced policy (h.revokePathFailures streak policy) (withdraw streak history) clock := by
  by_cases nothing : h.pathStreak ≠ streak ∨ h.pathFailures = 0
  · have same : h.revokePathFailures streak policy = h := if_pos nothing
    rw [same, withdraw_of_due (balanced.idle nothing)]
    exact balanced
  obtain ⟨same, charged⟩ := not_or.mp nothing
  have here := Decidable.not_not.mp same
  have total := balanced.revoke_failures streak
  obtain ⟨pathStreak, pathFailures, failures⟩ := h.revokePathFailures_frame streak policy
  obtain ⟨disabled, -, thresholdUntil⟩ := h.revokePathFailures_threshold_frame streak policy
  have lower : (h.revokePathFailures streak policy).failures ≤ h.failures := by
    rw [failures, if_pos here]
    exact Nat.sub_le _ _
  refine ⟨Nat.le_trans lower balanced.bounded, total, ?_, ?_, ?_, ?_⟩
  · rw [pathFailures, pathStreak, if_pos here, here, due_withdraw, if_pos rfl]
  · intro other differs
    rw [pathStreak, here] at differs
    rw [due_withdraw, if_neg differs]
    exact balanced.passed other (here ▸ differs)
  · intro enabled
    rw [disabled] at enabled
    rw [thresholdUntil]
    split_ifs with lifted
    · exact iff_of_false Bool.false_ne_true (Nat.not_le.mpr lifted.2.2)
    · have reached : policy.failureThreshold ≤ (h.revokePathFailures streak policy).failures :=
        Nat.not_lt.mp fun below => lifted ⟨here, charged, below⟩
      rw [balanced.threshold enabled]
      exact iff_of_true (Nat.le_trans reached lower) reached
  · intro limit set
    rw [thresholdUntil] at set
    split_ifs at set
    · cases set
    · exact balanced.deadline limit set

/-- One event on the health, by its kinds. -/
theorem event (balanced : Balanced policy h history clock) (positive : 1 ≤ policy.failureThreshold)
    (room : h.failures < u32Max) (forward : clock ≤ now) (taken : Health.Event) :
    Balanced policy (h.apply policy now taken) (note history taken) now := by
  cases taken with
  | none => exact balanced.later forward
  | succeeded => exact succeeded policy h now positive
  | transient streak => exact balanced.transient room now forward streak
  | disable => exact balanced.disable.later forward
  | reject => exact (balanced.reject room).later forward
  | coolDown limit => exact (balanced.coolDown limit).later forward

end Balanced

variable {policy : PoolPolicy} {login : Option LoginConfig} {b c : Books} {l : Label}

theorem report_health (policy : PoolPolicy) (login : Option LoginConfig) (now : Instant)
    (result : Except AppError Unit) (code : Option String) (charge : Charge) (a : Account) :
    (a.report policy login now result code charge).1.health =
      a.health.apply policy now (a.reportSignal policy login now result code charge).2.1 := rfl

/-- What one step of the account keeps: the events by the lemmas above, a withdrawal by its own. -/
theorem step_balanced (balanced : Balanced policy b.account.health b.history b.clock)
    (positive : 1 ≤ policy.failureThreshold) (room : b.account.health.failures < u32Max)
    (taken : step policy login b l = some c) : Balanced policy c.account.health c.history c.clock := by
  cases l with
  | report now result code charge =>
    simp only [step] at taken
    split_ifs at taken with forward
    cases taken
    exact balanced.event positive room forward _
  | disable =>
    cases taken
    exact balanced.disable
  | coolDown limit =>
    cases taken
    exact balanced.coolDown limit
  | revoke streak =>
    cases taken
    exact balanced.revoke streak

/-- The events that may take failures or cooldowns back. -/
def Relieves (policy : PoolPolicy) (login : Option LoginConfig) (b : Books) : Label → Prop
  | .revoke _ => True
  | l => action policy login b l = .succeeded

/-- No failure and no cooldown of the first health is missing from the second. -/
structure Retains (h r : Health) : Prop where
  failures : h.failures ≤ r.failures
  until_ : ∀ limit ∈ h.until_, ∃ later ∈ r.until_, limit ≤ later
  thresholdUntil : ∀ limit ∈ h.thresholdUntil, ∃ later ∈ r.thresholdUntil, limit ≤ later
  disabled : h.disabled = true → r.disabled = true

theorem Retains.refl (h : Health) : Retains h h where
  failures := Nat.le_refl _
  until_ := fun limit set => ⟨limit, set, Nat.le_refl _⟩
  thresholdUntil := fun limit set => ⟨limit, set, Nat.le_refl _⟩
  disabled := id

theorem retains_reject {h : Health} (bounded : h.failures ≤ u32Max) : Retains h h.reject :=
  { Retains.refl h with failures := le_satSucc (Nat.le_succ _) bounded, disabled := fun _ => rfl }

theorem retains_coolDown (h : Health) (limit : Instant) : Retains h (h.coolDown limit) := by
  refine { Retains.refl h with until_ := fun current set => ?_ }
  change ∃ later ∈ Health.maxInstant h.until_ (some limit), current ≤ later
  rw [Option.mem_def.mp set]
  exact ⟨max current limit, rfl, Nat.le_max_left _ _⟩

/-- A failure never shortens a deadline that was set before: the threshold's deadline was set by an earlier time
and the same cooldown. -/
theorem retains_transient {h : Health} {history : List Failure} {clock now : Instant}
    (balanced : Balanced policy h history clock) (forward : clock ≤ now) (streak : Option Nat) :
    Retains h (h.transient policy now streak) := by
  obtain ⟨failures, disabled, until_, thresholdUntil⟩ := h.transient_threshold_frame policy now streak
  refine ⟨?_, ?_, ?_, ?_⟩
  · rw [failures]
    exact le_satSucc (Nat.le_succ _) balanced.bounded
  · rw [until_]
    exact (Retains.refl h).until_
  · intro limit set
    rw [thresholdUntil]
    split_ifs with reached
    · exact ⟨_, rfl, (balanced.later forward).deadline limit set⟩
    · exact ⟨limit, set, Nat.le_refl _⟩
  · rw [disabled]
    exact id

/-- Apart from a success and a withdrawal, no step takes a failure, a deadline or the flag away. -/
theorem step_retains (balanced : Balanced policy b.account.health b.history b.clock)
    (taken : step policy login b l = some c) (keeps : ¬ Relieves policy login b l) :
    Retains b.account.health c.account.health := by
  cases l with
  | report now result code charge =>
    simp only [step] at taken
    split_ifs at taken with forward
    cases taken
    rw [report_health]
    change ¬ (b.account.reportSignal policy login now result code charge).2.1 = .succeeded at keeps
    cases event : (b.account.reportSignal policy login now result code charge).2.1 with
    | none => exact Retains.refl _
    | succeeded => exact absurd event keeps
    | transient streak => exact retains_transient balanced forward streak
    | disable => exact { Retains.refl b.account.health with disabled := fun _ => rfl }
    | reject => exact retains_reject balanced.bounded
    | coolDown limit => exact retains_coolDown _ limit
  | disable =>
    cases taken
    exact { Retains.refl b.account.health with disabled := fun _ => rfl }
  | coolDown limit =>
    cases taken
    exact retains_coolDown _ limit
  | revoke streak => exact absurd trivial keeps

/-- What the counters and deadlines of an account mean for its history. -/
structure Faithful (policy : PoolPolicy) (login : Option LoginConfig) (b : Books) : Prop where
  part : b.account.health.pathFailures ≤ b.account.health.failures
  total : b.account.health.failures = outstanding b.history
  threshold : b.account.health.disabled = false →
    (b.account.health.thresholdUntil.isSome ↔ policy.failureThreshold ≤ b.account.health.failures)
  revoked : ∀ streak c, step policy login b (.revoke streak) = some c →
    c.account.health.failures = outstanding (withdraw streak b.history) ∧
      c.account.health.until_ = b.account.health.until_ ∧ c.account.health.disabled = b.account.health.disabled ∧
      (b.account.health.disabled = true → ∀ now, c.account.health.available now = false)
  steady : ∀ l c, step policy login b l = some c → ¬ Relieves policy login b l →
    Retains b.account.health c.account.health

/-- A new account has no failures, and the threshold is at least one. -/
theorem balanced_default (policy : PoolPolicy) (clock : Instant) (positive : 1 ≤ policy.failureThreshold) :
    Balanced policy {} [] clock where
  bounded := Nat.zero_le _
  total := rfl
  share := rfl
  passed := fun _ _ => rfl
  threshold := fun _ => iff_of_false Bool.false_ne_true (Nat.not_le.mpr positive)
  deadline := by
    rintro limit ⟨⟩

/-- In every run of an account loaded under a valid policy, while its counter is not saturated. -/
theorem bookkeeping {account : Account} {clock : Instant} (fresh : account.health = {})
    (positive : 1 ≤ policy.failureThreshold)
    (reach : Run.Reach (step policy login) (fun b _ => b.account.health.failures < u32Max)
      { account := account, clock := clock } b) : Faithful policy login b := by
  have balanced : Balanced policy b.account.health b.history b.clock := by
    refine reach.invariant (P := fun b => Balanced policy b.account.health b.history b.clock) ?_ ?_
    · rw [fresh]
      exact balanced_default policy clock positive
    · exact fun _ _ _ balanced room taken => step_balanced balanced positive room taken
  refine ⟨balanced.part, balanced.total, balanced.threshold, ?_, fun l c => step_retains balanced⟩
  rintro streak c ⟨⟩
  obtain ⟨disabled, until_, -⟩ := b.account.health.revokePathFailures_threshold_frame streak policy
  refine ⟨balanced.revoke_failures streak, until_, disabled, fun out now => ?_⟩
  change (!(b.account.health.revokePathFailures streak policy).disabled && _) = false
  rw [disabled, out]
  rfl

/-- Two faults of streak 1 and one of streak 2 cool the account down; withdrawing streak 2
leaves the older run counted. -/
def sample : List Label :=
  [.report 1 (.error .timeout) none (.account (some 1)), .report 2 (.error .transport) none (.account (some 1)),
    .report 3 (.error (.grpc 8)) none .path, .report 4 (.error .timeout) none (.account (some 2)), .revoke 2]

def sampleAccount : Account := { name := "a", source := .static "1" "c" }

theorem bookkeeping_sample : ∃ b : Books, b.account.health.failures = 3 ∧ b.account.health.thresholdUntil.isSome ∧
    Faithful {} none b := by
  have runs : (Run.exec (fun b l => if b.account.health.failures < u32Max then step {} none b l else none)
      { account := sampleAccount } sample).map
        (fun b => (b.account.health.failures, b.account.health.thresholdUntil.isSome)) = some (3, true) := by
    decide
  obtain ⟨b, run, shape⟩ := Option.map_eq_some_iff.mp runs
  obtain ⟨failures, cooling⟩ := Prod.mk.inj shape
  exact ⟨b, failures, cooling, bookkeeping rfl (by decide) (Run.reach_of_allowed_exec .start run)⟩

end Bookkeeping

end SiriusProxy
