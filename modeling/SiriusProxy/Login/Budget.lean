import Mathlib.Data.List.Pairwise
import Mathlib.Data.List.TakeWhile
import SiriusProxy.Lib.Run
import SiriusProxy.Lib.Window
import SiriusProxy.Login.State

namespace SiriusProxy

/-- The bounds of `LoginConfig::validate` on the settings the budget uses. -/
def LoginConfig.valid (config : LoginConfig) : Bool :=
  decide (config.loginMinIntervalSeconds ≤ 86400) &&
    decide (1 ≤ config.maxLoginsPerDay ∧ config.maxLoginsPerDay ≤ 100)

namespace LoginState

/-- What an allowed login attempt knows about the attempts of the last day. -/
theorem nextAllowed_none {now : Instant} {config : LoginConfig} {s : LoginState} (valid : config.valid = true)
    (allowed : (s.nextAllowed now config).2 = none) :
    (dropOld now s.attempts).length < config.maxLoginsPerDay ∧
      ∀ last, (dropOld now s.attempts).getLast? = some last →
        last + fromSecs config.loginMinIntervalSeconds ≤ now := by
  simp only [LoginConfig.valid, Bool.and_eq_true, decide_eq_true_eq] at valid
  have both := List.append_eq_nil_iff.mp (List.max?_eq_none_iff.mp allowed)
  obtain ⟨interval, cap⟩ := both
  constructor
  · by_contra full
    have most : config.maxLoginsPerDay ≤ (s.prune now).attempts.length := Nat.le_of_not_lt full
    rw [if_pos most] at cap
    have empty : (s.prune now).attempts = [] := by
      cases held : (s.prune now).attempts with
      | nil => rfl
      | cons first rest =>
        rw [held] at cap
        cases cap
    rw [empty, List.length_nil] at most
    omega
  · intro last found
    by_contra early
    have pending : now < last + fromSecs config.loginMinIntervalSeconds := Nat.lt_of_not_le early
    have front : (s.prune now).attempts.getLast? = some last := found
    rw [front, Option.map_some, Option.filter_some, if_pos (decide_eq_true pending)] at interval
    cases interval

end LoginState

namespace Budget

/-- What the shared SDK session of the identity answers. Other regions and processes change it at
any time. -/
structure Shared where
  refused : Bool := false
  reusable : Bool := false
  keepaliveDue : Bool := false
  attempts : Nat := 0

inductive Kind where
  | call
  | keepalive
  deriving DecidableEq, Repr

inductive Phase where
  | leased
  | locked
  | begun
  | checked
  | waiting
  | mutex
  | exclusive
  | ready
  | attempted
  | signing
  | deferred
  | finished
  deriving DecidableEq, Repr

/-- An authenticated call or a keepalive pass, with the account object it uses. A call holds the
protocol barrier until it is finished. -/
structure Task where
  kind : Kind
  account : Nat
  phase : Phase := .leased
  now : Instant := 0
  seen : Nat := 0
  deriving DecidableEq, Repr

inductive Holder where
  | task (id : Nat)
  | other
  deriving DecidableEq, Repr

/-- A login attempt: the time that the task noted before its waits, which is what the history of
the account gets, and the time at which it was made. -/
structure Attempt where
  noted : Instant
  made : Instant
  deriving DecidableEq, Repr

/-- One Global account of one region. Each reload makes a new account object. `made` is the history
of the attempts that were really made, newest first. -/
structure World where
  clock : Instant := 0
  accounts : Nat → LoginState := fun _ => {}
  current : Nat := 0
  shared : Shared := {}
  mutex : Option Holder := none
  lockFile : Option Holder := none
  tasks : List Task := []
  made : List Attempt := []

inductive Label where
  | tick (duration : Nat)
  | share (shared : Shared)
  | otherMutex (held : Bool)
  | otherFile (held : Bool)
  | reload
  | signOut
  | call
  | keepalive
  | sessionLock (id : Nat)
  | begin_ (id : Nat)
  | check (id : Nat)
  | reuse (id : Nat)
  | wait (id : Nat)
  | login (id : Nat)
  | exclusive (id : Nat)
  | decide (id : Nat)
  | record (id : Nat)
  | release (id : Nat)
  | signIn (id : Nat) (session : Session)
  | finish (id : Nat)

def World.put (w : World) (id : Nat) (t : Task) : World := { w with tasks := w.tasks.set id t }

def World.setAccount (w : World) (account : Nat) (s : LoginState) : World :=
  { w with accounts := fun k => if k = account then s else w.accounts k }

/-- Drops the guards of the login mutex and the lock file that a task holds. -/
def World.dropGuards (w : World) (id : Nat) : World :=
  { w with
    mutex := w.mutex.filter fun h => decide (h ≠ .task id)
    lockFile := w.lockFile.filter fun h => decide (h ≠ .task id) }

/-- A call between its session lock and its end. -/
def Task.hasSession (t : Task) : Bool := t.kind == .call && t.phase != .leased && t.phase != .finished

def Task.inFlight (t : Task) : Bool := t.kind == .call && t.phase != .finished

variable (config : LoginConfig)

/-- The budget check of a task at the time it noted; it goes on as `next` or gives up. -/
def World.budget (w : World) (id : Nat) (t : Task) (next : Phase) : World :=
  let answer := (w.accounts t.account).nextAllowed t.now config
  (w.setAccount t.account answer.1).put id { t with phase := if answer.2.isNone then next else .deferred }

def act (w : World) (t : Task) : Label → Option World
  | .sessionLock id =>
    if t.kind = .call ∧ t.phase = .leased ∧ !w.tasks.any (fun o => o.hasSession && o.account == t.account) then
      some (w.put id { t with phase := .locked })
    else none
  | .begin_ id => match t.kind with
    | .call =>
      if t.phase = .locked ∧ (w.accounts t.account).session.isNone then
        some (w.put id { t with phase := .begun, now := w.clock })
      else none
    | .keepalive =>
      if t.phase = .leased ∧ w.shared.keepaliveDue then
        some (w.put id { t with phase := .waiting, now := w.clock })
      else none
  | .check id =>
    if t.kind = .call ∧ t.phase = .begun ∧ !w.shared.refused then some (w.budget config id t .checked) else none
  | .reuse id =>
    if t.phase = .checked ∧ w.shared.reusable then some (w.put id { t with phase := .ready }) else none
  | .wait id =>
    if t.phase = .checked ∧ !w.shared.reusable then
      some (w.put id { t with phase := .waiting, seen := w.shared.attempts })
    else none
  | .login id =>
    if t.phase = .waiting ∧ w.mutex = none then
      some { w.put id { t with phase := .mutex } with mutex := some (.task id) }
    else none
  | .exclusive id =>
    if t.phase = .mutex ∧ w.lockFile = none then
      some { w.put id { t with phase := .exclusive } with lockFile := some (.task id) }
    else none
  | .decide id => match t.kind with
    | .call =>
      if t.phase = .exclusive ∧ !w.shared.refused ∧ (w.shared.reusable ∨ w.shared.attempts = t.seen) then
        some (w.put id { t with phase := .ready })
      else none
    | .keepalive =>
      if t.phase = .exclusive ∧ w.shared.keepaliveDue then some (w.budget config id t .ready) else none
  | .record id =>
    if t.phase = .ready then
      let s := w.accounts t.account
      some
        { (w.setAccount t.account { s with attempts := s.attempts ++ [t.now] }).put id
            { t with phase := .attempted } with
          made := ⟨t.now, w.clock⟩ :: w.made }
    else none
  -- The guards of a call end with the arm that took them, before PlayerLogin is sent.
  | .release id =>
    if t.kind = .call ∧ t.phase = .attempted then
      some ((w.put id { t with phase := .signing }).dropGuards id)
    else none
  | .signIn id session =>
    if t.kind = .call ∧ t.phase = .signing then
      some (w.setAccount t.account
        { w.accounts t.account with session := some session, lastLoginAt := some w.clock } |>.put id t)
    else none
  | .finish id => some ((w.put id { t with phase := .finished }).dropGuards id)
  | _ => none

def Label.id : Label → Nat
  | .sessionLock id => id
  | .begin_ id => id
  | .check id => id
  | .reuse id => id
  | .wait id => id
  | .login id => id
  | .exclusive id => id
  | .decide id => id
  | .record id => id
  | .release id => id
  | .signIn id _ => id
  | .finish id => id
  | _ => 0

/-- `inherit_login_history`: what a new account object takes from the old one. -/
def inheritLoginHistory (old : LoginState) : LoginState :=
  { attempts := old.attempts, concurrentDevice := old.concurrentDevice, lastLoginAt := old.lastLoginAt }

def step (w : World) : Label → Option World
  | .tick duration => some { w with clock := w.clock + duration }
  | .share shared => some { w with shared := shared }
  | .otherMutex held =>
    if w.mutex = (if held then none else some .other) then
      some { w with mutex := if held then some .other else none }
    else none
  | .otherFile held =>
    if w.lockFile = (if held then none else some .other) then
      some { w with lockFile := if held then some .other else none }
    else none
  | .reload =>
    if w.tasks.any Task.inFlight then none
    else some
      { w.setAccount (w.current + 1) (inheritLoginHistory (w.accounts w.current)) with current := w.current + 1 }
  | .signOut => some (w.setAccount w.current { w.accounts w.current with session := none })
  | .call => some { w with tasks := w.tasks ++ [{ kind := .call, account := w.current }] }
  | .keepalive => some { w with tasks := w.tasks ++ [{ kind := .keepalive, account := w.current }] }
  | l => w.tasks[l.id]?.bind fun t => act config w t l

/-- The times at which the attempts were really made, newest first. -/
def World.madeAt (w : World) : List Instant := w.made.map Attempt.made

/-- The history as it would be with those times in it. -/
def World.history (w : World) : LoginState := { attempts := w.madeAt.reverse }

/-- The task whose attempt a step records. -/
def Label.recorded : Label → Option Nat
  | .record id => some id
  | _ => none

/-- When an attempt is recorded the account object is the one of the pool, and the code's own check
at the time the task noted has nothing against it, asked of the times at which the earlier attempts
were really made. -/
def allowed (w : World) (l : Label) : Prop :=
  ∀ id ∈ l.recorded, ∀ t ∈ w.tasks[id]?,
    t.account = w.current ∧ (w.history.nextAllowed t.now config).2 = none

instance (w : World) (l : Label) : Decidable (allowed config w l) :=
  inferInstanceAs (Decidable (∀ id ∈ l.recorded, ∀ t ∈ w.tasks[id]?,
    t.account = w.current ∧ (w.history.nextAllowed t.now config).2 = none))

/-- The history of an account object is the recent part of what was made. -/
def Recent (clock : Instant) (made attempts : List Instant) : Prop :=
  ∃ old, made = attempts.reverse ++ old ∧ ∀ t ∈ old, t + day ≤ clock

/-- What the allowed steps keep: the real times keep the settings, and the pool's account object
holds the noted times of the last day. -/
structure Inv (w : World) : Prop where
  spaced : Window.Spaced (fromSecs config.loginMinIntervalSeconds) w.madeAt
  capped : Window.Capped day config.maxLoginsPerDay w.madeAt
  recent : Recent w.clock (w.made.map Attempt.noted) (w.accounts w.current).attempts
  noted : ∀ t ∈ w.tasks, t.now ≤ w.clock

variable {config} {w x : World} {clock now : Instant} {made attempts : List Instant} {id : Nat} {t : Task}

/-- A new attempt is the last of the history, whatever time it carries. -/
theorem Recent.snoc (recent : Recent clock made attempts) (t : Instant) :
    Recent clock (t :: made) (attempts ++ [t]) := by
  obtain ⟨old, parts, past⟩ := recent
  refine ⟨old, ?_, past⟩
  rw [List.reverse_append, List.reverse_singleton, List.singleton_append, List.cons_append, parts]

theorem Recent.later {after : Instant} (recent : Recent clock made attempts) (order : clock ≤ after) :
    Recent after made attempts := by
  obtain ⟨old, parts, past⟩ := recent
  exact ⟨old, parts, fun t member => Nat.le_trans (past t member) order⟩

/-- The saturating age of a time, as a comparison. -/
theorem day_old (t now : Nat) : day ≤ now - t ↔ t + day ≤ now := by
  have positive : 0 < day := by decide
  omega

/-- Pruning forgets only what is a day old. -/
theorem Recent.dropOld (recent : Recent clock made attempts) (order : now ≤ clock) :
    Recent clock made (LoginState.dropOld now attempts) := by
  obtain ⟨old, parts, past⟩ := recent
  refine ⟨(attempts.takeWhile fun t => decide (day ≤ now - t)).reverse ++ old, ?_, ?_⟩
  · rw [parts, ← List.append_assoc, ← List.reverse_append, LoginState.dropOld, List.takeWhile_append_dropWhile]
  · intro t member
    rcases List.mem_append.mp member with dropped | kept
    · have gone := List.mem_takeWhile_imp (List.mem_reverse.mp dropped)
      exact Nat.le_trans ((day_old t now).mp (of_decide_eq_true gone)) order
    · exact past t kept

theorem ascending (spaced : Window.Spaced clock made) (recent : Recent now made attempts) :
    attempts.Pairwise (· ≤ ·) := by
  obtain ⟨old, parts, -⟩ := recent
  rw [Window.Spaced, parts] at spaced
  have own := List.pairwise_reverse.mp (List.pairwise_append.mp spaced).1
  exact own.imp fun order => Nat.le_trans (Nat.le_add_right _ _) order

/-- From ascending attempts pruning removes exactly those that are a day old. -/
theorem dropOld_eq_filter (now : Instant) (sorted : attempts.Pairwise (· ≤ ·)) :
    LoginState.dropOld now attempts = attempts.filter fun t => decide (now < t + day) := by
  unfold LoginState.dropOld
  rw [Window.dropWhile_eq_filter sorted]
  · refine List.filter_congr fun t _ => ?_
    rw [← decide_not]
    exact decide_eq_decide.mpr ((not_congr (day_old t now)).trans Nat.not_le)
  · intro s t order old
    have gone := (day_old t now).mp (of_decide_eq_true old)
    exact decide_eq_true ((day_old s now).mpr (Nat.le_trans (Nat.add_le_add_right order day) gone))

/-- An attempt that passes the check now keeps the interval and the cap. -/
theorem admits (valid : config.valid = true)
    (spaced : Window.Spaced (fromSecs config.loginMinIntervalSeconds) made) {s : LoginState}
    (recent : Recent clock made s.attempts) (passes : (s.nextAllowed clock config).2 = none) :
    (∀ t ∈ made, t + fromSecs config.loginMinIntervalSeconds ≤ clock) ∧
      (made.filter fun t => decide (clock < t + day)).length < config.maxLoginsPerDay := by
  obtain ⟨few, gap⟩ := LoginState.nextAllowed_none valid passes
  have sorted := ascending spaced recent
  have interval : fromSecs config.loginMinIntervalSeconds ≤ day := by
    simp only [LoginConfig.valid, Bool.and_eq_true, decide_eq_true_eq] at valid
    exact Nat.mul_le_mul_right _ valid.1
  have pruned := dropOld_eq_filter clock sorted
  obtain ⟨old, parts, past⟩ := recent
  have aged : ∀ t : Nat, t + day ≤ clock → t + fromSecs config.loginMinIntervalSeconds ≤ clock :=
    fun t gone => Nat.le_trans (Nat.add_le_add_left interval t) gone
  constructor
  · intro t member
    rw [parts] at member
    rcases List.mem_append.mp member with own | gone
    · by_cases counted : clock < t + day
      · have kept : t ∈ LoginState.dropOld clock s.attempts := by
          rw [pruned]
          exact List.mem_filter.mpr ⟨List.mem_reverse.mp own, decide_eq_true counted⟩
        have some_left := List.ne_nil_of_mem kept
        have order : t ≤ (LoginState.dropOld clock s.attempts).getLast some_left := by
          rw [pruned] at kept
          have still : (LoginState.dropOld clock s.attempts).Pairwise (· ≤ ·) := by
            rw [pruned]
            exact sorted.filter _
          exact still.rel_getLast (pruned ▸ kept)
        exact Nat.le_trans (Nat.add_le_add_right order _) (gap _ (List.getLast?_eq_some_getLast some_left))
      · exact aged t (Nat.le_of_not_lt counted)
    · exact aged t (past t gone)
  · have none_old : (old.filter fun t => decide (clock < t + day)) = [] := by
      refine List.filter_eq_nil_iff.mpr fun t member counted => ?_
      exact absurd (of_decide_eq_true counted) (Nat.not_lt_of_le (past t member))
    rw [parts, List.filter_append, none_old, List.append_nil, List.filter_reverse, List.length_reverse, ← pruned]
    exact few

/-- What passes the check on the real times, at a time noted before the clock, may be made now: the
interval has only grown since, and no more attempts count. -/
theorem admits_later (valid : config.valid = true)
    (spaced : Window.Spaced (fromSecs config.loginMinIntervalSeconds) w.madeAt)
    (passes : (w.history.nextAllowed now config).2 = none) (order : now ≤ clock) :
    (∀ t ∈ w.madeAt, t + fromSecs config.loginMinIntervalSeconds ≤ clock) ∧
      (w.madeAt.filter fun t => decide (clock < t + day)).length < config.maxLoginsPerDay := by
  have whole : Recent now w.madeAt w.history.attempts :=
    ⟨[], by rw [World.history, List.reverse_reverse, List.append_nil], fun t member => absurd member List.not_mem_nil⟩
  obtain ⟨gap, few⟩ := admits valid spaced whole passes
  refine ⟨fun t member => Nat.le_trans (gap t member) order, Nat.lt_of_le_of_lt ?_ few⟩
  refine (List.monotone_filter_right w.madeAt fun t counted => ?_).length_le
  exact decide_eq_true (Nat.lt_of_le_of_lt order (of_decide_eq_true counted))

/-- A step that records nothing keeps the budget; at most it prunes the history. -/
theorem Inv.frame (inv : Inv config w) (made : x.made = w.made)
    (attempts : Recent x.clock (w.made.map Attempt.noted) (x.accounts x.current).attempts)
    (noted : ∀ t ∈ x.tasks, t.now ≤ x.clock) : Inv config x := by
  refine ⟨?_, ?_, ?_, noted⟩
  · rw [World.madeAt, made]
    exact inv.spaced
  · rw [World.madeAt, made]
    exact inv.capped
  · rw [made]
    exact attempts

theorem noted_put (noted : ∀ o ∈ w.tasks, o.now ≤ w.clock) (own : t.now ≤ w.clock) :
    ∀ o ∈ (w.put id t).tasks, o.now ≤ w.clock := by
  intro o member
  rcases List.mem_or_eq_of_mem_set member with old | rfl
  · exact noted o old
  · exact own

/-- A task that joins has not noted a time after the clock either. -/
theorem noted_snoc (noted : ∀ o ∈ w.tasks, o.now ≤ w.clock) (own : t.now ≤ w.clock) :
    ∀ o ∈ w.tasks ++ [t], o.now ≤ w.clock := by
  intro o member
  rcases List.mem_append.mp member with old | new
  · exact noted o old
  · rw [List.mem_singleton.mp new]
    exact own

theorem Inv.put (inv : Inv config w) (own : t.now ≤ w.clock) : Inv config (w.put id t) :=
  inv.frame rfl inv.recent (noted_put inv.noted own)

theorem attempts_setAccount {account : Nat} {s : LoginState}
    (own : account = w.current → Recent w.clock (w.made.map Attempt.noted) s.attempts) (inv : Inv config w) :
    Recent w.clock (w.made.map Attempt.noted) ((w.setAccount account s).accounts w.current).attempts := by
  change Recent w.clock (w.made.map Attempt.noted) (if w.current = account then s else w.accounts w.current).attempts
  split_ifs with mine
  · exact own mine.symm
  · exact inv.recent

/-- The check drops times that are older than a day and nothing else. -/
theorem Inv.budget {next : Phase} (inv : Inv config w) (own : t.now ≤ w.clock) :
    Inv config (w.budget config id t next) := by
  refine inv.frame rfl ?_ (noted_put inv.noted own)
  refine attempts_setAccount (fun mine => ?_) inv
  have recent := inv.recent
  rw [← mine] at recent
  exact recent.dropOld own

/-- The recording step: the real time keeps the settings, the noted time enters the pool's history. -/
theorem Inv.record (valid : config.valid = true) (inv : Inv config w) (own : t.now ≤ w.clock)
    (account : t.account = w.current) (passes : (w.history.nextAllowed t.now config).2 = none) :
    Inv config
      { (w.setAccount t.account
            { w.accounts t.account with attempts := (w.accounts t.account).attempts ++ [t.now] }).put id
          { t with phase := .attempted } with
        made := ⟨t.now, w.clock⟩ :: w.made } := by
  obtain ⟨gap, few⟩ := admits_later valid inv.spaced passes own
  refine ⟨List.pairwise_cons.mpr ⟨gap, inv.spaced⟩, ⟨few, inv.capped⟩, ?_, noted_put inv.noted own⟩
  change Recent w.clock (t.now :: w.made.map Attempt.noted)
    (if w.current = t.account then _ else w.accounts w.current).attempts
  rw [if_pos account.symm, account]
  exact inv.recent.snoc t.now

/-- What a step of one task keeps, by the kinds of step. Only a record adds an attempt: the check asked at the
noted time, which is not after the clock, so the attempt is spaced from those made before. -/
theorem act_inv {l : Label} (valid : config.valid = true) (inv : Inv config w) (own : t.now ≤ w.clock)
    (permitted : ∀ id ∈ l.recorded, t.account = w.current ∧ (w.history.nextAllowed t.now config).2 = none)
    (taken : act config w t l = some x) : Inv config x := by
  cases l with
  | sessionLock id | reuse id | wait id | login id | exclusive id | release id =>
    simp only [act] at taken
    split_ifs at taken
    cases taken
    exact inv.frame rfl inv.recent (noted_put inv.noted own)
  | begin_ id =>
    simp only [act] at taken
    split at taken
    · split_ifs at taken
      cases taken
      exact inv.put (Nat.le_refl _)
    · split_ifs at taken
      cases taken
      exact inv.put (Nat.le_refl _)
  | check id =>
    simp only [act] at taken
    split_ifs at taken
    cases taken
    exact inv.budget own
  | decide id =>
    simp only [act] at taken
    split at taken
    · split_ifs at taken
      cases taken
      exact inv.put own
    · split_ifs at taken
      cases taken
      exact inv.budget own
  | record id =>
    simp only [act] at taken
    split_ifs at taken
    cases taken
    obtain ⟨account, passes⟩ := permitted id rfl
    exact inv.record valid own account passes
  | signIn id session =>
    simp only [act] at taken
    split_ifs at taken
    cases taken
    refine inv.frame rfl ?_ (noted_put inv.noted own)
    refine attempts_setAccount (fun mine => ?_) inv
    rw [mine]
    exact inv.recent
  | finish id =>
    cases taken
    exact inv.frame rfl inv.recent (noted_put inv.noted own)
  | _ => cases taken

/-- The other steps let time pass, change what others hold, or exchange the account object; the new one takes the
history over. -/
theorem step_inv {l : Label} (valid : config.valid = true) (inv : Inv config w) (permitted : allowed config w l)
    (taken : step config w l = some x) : Inv config x := by
  have acts : ∀ {t : Task}, w.tasks[l.id]? = some t → act config w t l = some x → Inv config x := by
    intro t found acted
    refine act_inv valid inv (inv.noted t (List.mem_of_getElem? found)) (fun id records => ?_) acted
    cases l with
    | record =>
      cases records
      exact permitted id rfl t found
    | _ => cases records
  cases l with
  | tick duration =>
    cases taken
    have later : w.clock ≤ w.clock + duration := Nat.le_add_right _ _
    exact inv.frame rfl (inv.recent.later later) fun t member => Nat.le_trans (inv.noted t member) later
  | share shared =>
    cases taken
    exact inv.frame rfl inv.recent inv.noted
  | otherMutex held | otherFile held =>
    simp only [step] at taken
    split_ifs at taken
    all_goals
      cases taken
      exact inv.frame rfl inv.recent inv.noted
  | reload =>
    simp only [step] at taken
    split_ifs at taken
    cases taken
    refine inv.frame rfl ?_ inv.noted
    change Recent w.clock (w.made.map Attempt.noted) (if w.current + 1 = w.current + 1 then _ else _ : LoginState).attempts
    rw [if_pos rfl]
    exact inv.recent
  | signOut =>
    cases taken
    exact inv.frame rfl (attempts_setAccount (fun _ => inv.recent) inv) inv.noted
  | call | keepalive =>
    cases taken
    exact inv.frame rfl inv.recent (noted_snoc inv.noted (Nat.zero_le _))
  | _ =>
    obtain ⟨t, found, acted⟩ := Option.bind_eq_some_iff.mp taken
    exact acts found acted

end Budget

end SiriusProxy
