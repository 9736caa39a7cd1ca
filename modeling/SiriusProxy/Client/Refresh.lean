import SiriusProxy.Client.Snapshot
import SiriusProxy.Routing.Call

namespace SiriusProxy.Client.Refresh
open Resources Routing

/-- `version_need`: Version and PlayerLogin never wait for one. -/
def versionNeed (config : Config) (route : Route) (now : Instant) (s : State) : VersionNeed :=
  if route = .version ∨ route = .playerLogin then .fresh
  else
    let missing := s.observation.masterVersion.isNone ||
      (config.region.isGlobal && s.observation.resourceVersion.isNone)
    if missing && route.authenticated then .required
    else if s.observation.masterVersion.isNone || s.versionRetryAt.any (fun at_ => decide (now < at_)) then .fresh
    else if s.versionSuspect then .refresh true
    else if s.versionFreshUntil.all (fun at_ => decide (at_ ≤ now)) then .refresh false
    else .fresh

/-- The `x-master-version` of a request: a Version call after a mismatch omits the rejected one. -/
def sentVersion (route : Route) (s : State) : Option String :=
  if route = .playerLogin ∨ (route = .version ∧ s.versionSuspect) then none else s.observation.masterVersion

/-- The check of the announced version; header values are visible ASCII. -/
def headerVersion (version : String) : Bool :=
  version != "" && decide (version.utf8ByteSize ≤ 256) &&
    version.toList.all fun c => (' ' ≤ c && c ≤ '~') || c == '\t'

/-- The state update of a VERSION response in any region. -/
def adopt (config : Config) (version : String) (bodyResource asset : Option String) (now : Instant) (s : State) :
    State :=
  let s := s.version config version bodyResource asset now
  if config.region.isGlobal then { s with snapshotStale := true } else s

/-- One `execute_once`: the request with the version it carried, its answer of status 0 once it is
observed, and a Version answer once its state update is made. -/
inductive Rpc where
  | unsent
  | sent (route : Route) (version : Option String)
  | observed (route : Route) (md : HeaderMap)
  | stored (md : HeaderMap)
  | done
  deriving DecidableEq, Repr

/-- Where a call is. From `holding` to `failing` it owns `bootstrap_lock`; `failing` is a refresh that
failed at `clock` and has not noted it yet. How many attempts an `execute` makes is left open. -/
inductive Stage where
  | waiting (route : Route)
  | holding (route : Route)
  | fetching (route : Route) (required : Bool) (rpc : Rpc)
  | failing (route : Route) (clock : Instant)
  | calling (route : Route) (rpc : Rpc)
  | gone
  deriving DecidableEq, Repr

def Stage.locked : Stage → Bool
  | .holding _ | .fetching _ _ _ | .failing _ _ => true
  | _ => false

def Stage.rpc : Stage → Option Rpc
  | .fetching _ _ rpc | .calling _ rpc => some rpc
  | _ => none

def Stage.withRpc (rpc : Rpc) : Stage → Stage
  | .fetching route required _ => .fetching route required rpc
  | .calling route _ => .calling route rpc
  | stage => stage

/-- The requests of a call: the refresh or bootstrap sends Version, the call its own route and what
its session needs. -/
def Stage.sends (route : Route) : Stage → Bool
  | .fetching _ _ _ => route = .version
  | .calling own _ => route = own || (own.authenticated && (route = .whoami || route = .playerLogin))
  | _ => false

structure World where
  clock : Instant := 0
  state : State
  lock : Option Nat := none
  tasks : List Stage := []

inductive Action where
  | arrive (route : Route)
  | acquire (task : Nat)
  | decide (task : Nat) (admitted : Bool)
  | send (task : Nat) (route : Route)
  | observe (task : Nat) (md : HeaderMap) (status : Option Nat)
  | version (task : Nat) (version : String) (bodyResource asset : Option String)
  | promote (task : Nat) (protocolVersion : String)
  | lost (task : Nat)
  | finish (task : Nat)
  | fail (task : Nat)
  | retreat (task : Nat)
  | leave (task : Nat) (failed : Bool)
  | reload

structure Label where
  now : Instant
  action : Action

def World.join (w : World) (stage : Stage) : World := { w with tasks := w.tasks ++ [stage] }

def World.move (w : World) (task : Nat) (stage : Stage) : World := { w with tasks := w.tasks.set task stage }

/-- The guard of `bootstrap_lock` is dropped. -/
def World.release (w : World) (task : Nat) : World :=
  { w with lock := if w.lock = some task then none else w.lock }

variable {Value Version : Type} [LinearOrder Version]

/-- `ensure_version` up to the lock; only an age-only refresh is skipped while another one runs. -/
def arrive (config : Config) (w : World) (route : Route) (now : Instant) : World :=
  if config.region.isGlobal ∧ route = .whoami then w.join (.calling route .unsent)
  else match versionNeed config route now w.state with
    | .fresh => w.join (.calling route .unsent)
    | .refresh false =>
      if w.lock = none then { w with lock := some w.tasks.length }.join (.holding route)
      else w.join (.calling route .unsent)
    | _ => w.join (.waiting route)

/-- `ensure_version` under the lock. -/
def resolve (config : Config) (w : World) (task : Nat) (route : Route) (admitted : Bool) (now : Instant) : World :=
  match versionNeed config route now w.state with
  | .fresh => (w.release task).move task (.calling route .unsent)
  | .required =>
    if admitted then w.move task (.fetching route true .unsent) else (w.release task).move task .gone
  | .refresh _ =>
    if admitted then w.move task (.fetching route false .unsent)
    else (w.release task).move task (.calling route .unsent)

/-- The steps of an `execute_once`, each under its own short lock of the state. -/
def exchange (formats : Formats Value Version) (config : Config) (s : State) (now : Instant) (stage : Stage) :
    Action → Option (State × Rpc)
  | .send _ route =>
    if stage.rpc = some .unsent ∧ stage.sends route then some (s, .sent route (sentVersion route s)) else none
  | .observe _ md status =>
    match stage.rpc with
    | some (.sent route version) =>
      some (s.observe formats.rfc3339 config md status version now,
        if status = some 0 then .observed route md else .unsent)
    | _ => none
  | .version _ version bodyResource asset =>
    match stage.rpc with
    | some (.observed .version md) =>
      if headerVersion version then some (adopt config version bodyResource asset now s, .stored md) else none
    | _ => none
  | .promote _ protocolVersion =>
    match stage.rpc with
    | some (.stored md) => some (s.promote formats config md protocolVersion now, .done)
    | some (.observed route md) =>
      if route = .version then none else some (s.promote formats config md protocolVersion now, .done)
    | _ => none
  | .lost _ =>
    match stage.rpc with
    | some (.sent _ _) | some (.observed _ _) => some (s, .unsent)
    | _ => none
  | _ => none

def World.exchanged (w : World) (task : Nat) (stage : Stage) (answer : State × Rpc) : World :=
  { w with state := answer.1 }.move task (stage.withRpc answer.2)

/-- The steps of a call that is in `stage`. -/
def advance (formats : Formats Value Version) (config : Config) (w : World) (now : Instant) (task : Nat)
    (stage : Stage) (action : Action) : Option World :=
  match action, stage with
  | .acquire _, .waiting route =>
    if w.lock = none then some ({ w with lock := some task }.move task (.holding route)) else none
  | .decide _ admitted, .holding route => some (resolve config w task route admitted now)
  | .finish _, .fetching route _ .done => some ((w.release task).move task (.calling route .unsent))
  | .finish _, .calling route .done => some (w.move task (.calling route .unsent))
  | .fail _, .fetching route false _ => some (w.move task (.failing route now))
  | .retreat _, .failing route clock =>
    some (({ w with state := { w.state with versionRetryAt := some (clock + versionRetry) } }.release task).move task
      (.calling route .unsent))
  | .leave _ _, .gone => none
  | .leave _ failed, _ =>
    some (({ w with state := if failed then w.state.callFailed now else w.state }.release task).move task .gone)
  | action, stage => (exchange formats config w.state now stage action).map (w.exchanged task stage)

def Action.task : Action → Option Nat
  | .arrive _ | .reload => none
  | .acquire task | .decide task _ | .send task _ | .observe task _ _ | .version task _ _ _ | .promote task _
  | .lost task | .finish task | .fail task | .retreat task | .leave task _ => some task

/-- A reload waits until no call uses the old protocol. -/
def act (formats : Formats Value Version) (config : Config) (w : World) (now : Instant) (action : Action) :
    Option World :=
  match action with
  | .arrive route => some (arrive config w route now)
  | .reload => if w.tasks.all (· == .gone) then some { w with state := w.state.reload } else none
  | action => action.task.bind fun task => w.tasks[task]?.bind fun stage =>
      advance formats config w now task stage action

def step (formats : Formats Value Version) (config : Config) (w : World) (label : Label) : Option World :=
  if w.clock ≤ label.now then act formats config { w with clock := label.now } label.now label.action else none

variable {formats : Formats Value Version} {config : Config} {w x y : World} {s : State} {now : Instant}

/-- A refresh is only due with a version in use and no back-off running. -/
theorem versionNeed_refresh {route : Route} {wait : Bool} (due : versionNeed config route now s = .refresh wait) :
    s.observation.masterVersion.isSome ∧ ∀ at_, s.versionRetryAt = some at_ → at_ ≤ now := by
  simp only [versionNeed] at due
  split at due
  · cases due
  split at due
  · cases due
  split at due
  · cases due
  · rename_i free
    rw [Bool.or_eq_true, not_or] at free
    obtain ⟨used, idle⟩ := free
    refine ⟨by simpa [Option.isSome_iff_ne_none] using used, fun at_ running => ?_⟩
    rw [running] at idle
    simpa using idle

/-- The fields behind the back-off are as they were. -/
structure Kept (s t : State) : Prop where
  retry : t.versionRetryAt = s.versionRetryAt
  version : t.observation.masterVersion = s.observation.masterVersion

theorem Kept.refl (s : State) : Kept s s := ⟨rfl, rfl⟩

theorem Kept.trans {s t u : State} (first : Kept s t) (second : Kept t u) : Kept s u :=
  ⟨second.retry.trans first.retry, second.version.trans first.version⟩

theorem kept_signal (status : Option Nat) (sent : Option String) (s : State) : Kept s (s.signal status sent) := by
  unfold State.signal
  split_ifs <;> exact ⟨rfl, rfl⟩

theorem kept_failed (status : Option Nat) (s : State) :
    Kept s (s.failed status) ∧ (s.failed status).versionSuspect = s.versionSuspect := by
  unfold State.failed
  split_ifs <;> exact ⟨⟨rfl, rfl⟩, rfl⟩

theorem kept_follow (root : Option String) (s : State) :
    Kept s (s.follow root) ∧ (s.follow root).versionSuspect = s.versionSuspect := by
  unfold State.follow
  split
  · exact ⟨Kept.refl s, rfl⟩
  · split_ifs <;> exact ⟨⟨rfl, rfl⟩, rfl⟩

theorem kept_verify (config : Config) (credential : Option String) (s : State) :
    Kept s (s.verify config credential) ∧ (s.verify config credential).versionSuspect = s.versionSuspect := by
  unfold State.verify
  split
  · exact ⟨Kept.refl s, rfl⟩
  · split_ifs <;> exact ⟨⟨rfl, rfl⟩, rfl⟩

theorem signal_suspect {status : Option Nat} {sent : Option String}
    (raised : (s.signal status sent).versionSuspect = true) (calm : s.versionSuspect = false) :
    s.observation.applicationCode = some masterVersionMismatch ∧ sent.isSome ∧
      sent = s.observation.masterVersion := by
  unfold State.signal at raised
  split at raised
  · rename_i mismatch
    exact ⟨mismatch.1, mismatch.2.2⟩
  · split_ifs at raised <;> cases calm.symm.trans raised

/-- An answer changes neither the back-off nor the version, and makes the version suspect only by a
mismatch for the version in use. -/
theorem observe_kept (rfc3339 : String → Bool) (config : Config) (md : HeaderMap) (status : Option Nat)
    (sent : Option String) (now : Instant) (s : State) :
    Kept s (s.observe rfc3339 config md status sent now) ∧
      ((s.observe rfc3339 config md status sent now).versionSuspect = true → s.versionSuspect = false →
        applicationCode md = some masterVersionMismatch ∧ sent.isSome ∧ sent = s.observation.masterVersion) := by
  have recorded : Kept s (s.record rfc3339 md status sent now) := by
    obtain ⟨retry, version⟩ := kept_signal status sent
      { s with observation := { s.observation with
        observedAt := some now, grpcStatus := status, applicationCode := applicationCode md,
        maintenance := applicationCode md == some "UNDER_MAINTENANCE" } }
    exact ⟨retry, version⟩
  have failed := kept_failed status (s.record rfc3339 md status sent now)
  have followed := kept_follow (header md "x-sirius-env") ((s.record rfc3339 md status sent now).failed status)
  have verified := kept_verify config (header md "x-sirius-cred")
    (((s.record rfc3339 md status sent now).failed status).follow (header md "x-sirius-env"))
  refine ⟨((recorded.trans failed.1).trans followed.1).trans verified.1, fun raised calm => ?_⟩
  have raised : (s.record rfc3339 md status sent now).versionSuspect = true :=
    failed.2.symm.trans (followed.2.symm.trans (verified.2.symm.trans raised))
  exact signal_suspect raised calm

/-- Taking the resource version and the protocol over from a Version answer does not touch the back-off or the
version in use. -/
theorem promote_kept (formats : Formats Value Version) (config : Config) (md : HeaderMap) (protocolVersion : String)
    (now : Instant) (s : State) :
    Kept s (s.promote formats config md protocolVersion now) ∧
      (s.promote formats config md protocolVersion now).versionSuspect = s.versionSuspect := by
  unfold State.promote
  split
  · exact ⟨Kept.refl s, rfl⟩
  split
  · exact ⟨Kept.refl s, rfl⟩
  split <;> exact ⟨⟨rfl, rfl⟩, rfl⟩

theorem adopt_retry (config : Config) (version : String) (bodyResource asset : Option String) (now : Instant)
    (s : State) :
    (adopt config version bodyResource asset now s).versionRetryAt =
        (if s.versionSuspect ∧ s.observation.masterVersion = some version then some (now + versionRetry) else none) ∧
      (adopt config version bodyResource asset now s).observation.masterVersion = some version ∧
      (adopt config version bodyResource asset now s).versionSuspect = false := by
  unfold adopt
  split <;> exact ⟨rfl, rfl, rfl⟩

def Action.succeeds : Action → Bool
  | .version _ _ _ _ => true
  | _ => false

/-- What a step does to the state. -/
inductive Updates (formats : Formats Value Version) (config : Config) (w : World) (now : Instant) :
    Action → State → Prop
  | kept {action : Action} {t : State} : action.succeeds = false → Kept w.state t →
      t.versionSuspect = w.state.versionSuspect → Updates formats config w now action t
  | observe {task : Nat} {stage : Stage} {route : Route} {sent : Option String} (md : HeaderMap)
      (status : Option Nat) : w.tasks[task]? = some stage → stage.rpc = some (.sent route sent) →
      Updates formats config w now (.observe task md status)
        (w.state.observe formats.rfc3339 config md status sent now)
  | version (task : Nat) (version : String) (bodyResource asset : Option String) :
      Updates formats config w now (.version task version bodyResource asset)
        (adopt config version bodyResource asset now w.state)
  | retreat {task : Nat} {route : Route} {clock : Instant} : w.tasks[task]? = some (.failing route clock) →
      Updates formats config w now (.retreat task) { w.state with versionRetryAt := some (clock + versionRetry) }
  | reload : Updates formats config w now .reload w.state.reload

variable {action : Action} {task : Nat} {stage : Stage}

omit [LinearOrder Version] in
theorem Updates.same (unanswered : action.succeeds = false) : Updates formats config w now action w.state :=
  .kept unanswered (Kept.refl _) rfl

/-- A call that arrives reads the state only; what it changes is the lock and the list of calls. -/
theorem arrive_state (config : Config) (w : World) (route : Route) (now : Instant) :
    (arrive config w route now).state = w.state := by
  unfold arrive
  split
  · rfl
  · split
    · rfl
    · split <;> rfl
    · rfl

theorem resolve_state (config : Config) (w : World) (task : Nat) (route : Route) (admitted : Bool) (now : Instant) :
    (resolve config w task route admitted now).state = w.state := by
  unfold resolve
  split
  · rfl
  · split <;> rfl
  · split <;> rfl

/-- Each step of an RPC is one update of the state: an answer is observed, a Version answer adopted, or neither
back-off nor version is touched. -/
theorem exchange_updates {answer : State × Rpc} (named : action.task = some task) (there : w.tasks[task]? = some stage)
    (taken : exchange formats config w.state now stage action = some answer) :
    Updates formats config w now action answer.1 := by
  unfold exchange at taken
  split at taken
  · split at taken
    · cases taken
      exact .same rfl
    · cases taken
  · split at taken
    · rename_i sent
      cases taken
      cases named
      exact .observe _ _ there sent
    · cases taken
  · split at taken
    · split at taken
      · cases taken
        exact .version ..
      · cases taken
    · cases taken
  · have kept := fun md protocolVersion => promote_kept formats config md protocolVersion now w.state
    split at taken
    · cases taken
      exact .kept rfl (kept _ _).1 (kept _ _).2
    · split at taken
      · cases taken
      · cases taken
        exact .kept rfl (kept _ _).1 (kept _ _).2
    · cases taken
  · split at taken
    · cases taken
      exact .same rfl
    · cases taken
      exact .same rfl
    · cases taken
  · cases taken

/-- The same of all steps of a call; the note of a failed refresh is the one other step that sets the back-off. -/
theorem advance_updates (named : action.task = some task) (there : w.tasks[task]? = some stage)
    (taken : advance formats config w now task stage action = some x) :
    Updates formats config w now action x.state := by
  unfold advance at taken
  split at taken
  · split at taken
    · cases taken
      exact .same rfl
    · cases taken
  · cases taken
    rw [resolve_state]
    exact .same rfl
  · cases taken
    exact .same rfl
  · cases taken
    exact .same rfl
  · cases taken
    exact .same rfl
  · cases taken
    cases named
    exact .retreat there
  · cases taken
  · rename_i failed _
    cases taken
    cases failed with
    | false => exact .same rfl
    | true => exact .kept rfl ⟨rfl, rfl⟩ rfl
  · obtain ⟨answer, exchanged, rfl⟩ := Option.map_eq_some_iff.mp taken
    exact exchange_updates named there exchanged

/-- Only the owner of `bootstrap_lock` is past it. -/
def Exclusive (w : World) : Prop :=
  ∀ task stage, w.tasks[task]? = some stage → stage.locked = true → w.lock = some task

theorem withRpc_locked (rpc : Rpc) (stage : Stage) : (stage.withRpc rpc).locked = stage.locked := by
  cases stage <;> rfl

theorem withRpc_failing {rpc : Rpc} {route : Route} {clock : Instant}
    (failing : stage.withRpc rpc = .failing route clock) : stage = .failing route clock := by
  cases stage with
  | failing => exact failing
  | _ => cases failing

/-- A step of a call moves that call alone; it keeps the lock, drops it or takes it when it is free. -/
theorem advance_moves (taken : advance formats config w now task stage action = some x) :
    ∃ next, x.tasks = w.tasks.set task next ∧ x.clock = w.clock ∧
      (∀ route clock, next = .failing route clock → clock = now ∨ stage = .failing route clock) ∧
      ((x.lock = w.lock ∧ (next.locked = true → stage.locked = true)) ∨
        (x.lock = (w.release task).lock ∧ next.locked = false) ∨ (w.lock = none ∧ x.lock = some task)) := by
  unfold advance at taken
  split at taken
  · split at taken
    · rename_i free
      cases taken
      exact ⟨_, rfl, rfl, nofun, Or.inr (Or.inr ⟨free, rfl⟩)⟩
    · cases taken
  · cases taken
    unfold resolve
    split
    · exact ⟨_, rfl, rfl, nofun, Or.inr (Or.inl ⟨rfl, rfl⟩)⟩
    · split
      · exact ⟨_, rfl, rfl, nofun, Or.inl ⟨rfl, fun _ => rfl⟩⟩
      · exact ⟨_, rfl, rfl, nofun, Or.inr (Or.inl ⟨rfl, rfl⟩)⟩
    · split
      · exact ⟨_, rfl, rfl, nofun, Or.inl ⟨rfl, fun _ => rfl⟩⟩
      · exact ⟨_, rfl, rfl, nofun, Or.inr (Or.inl ⟨rfl, rfl⟩)⟩
  · cases taken
    exact ⟨_, rfl, rfl, nofun, Or.inr (Or.inl ⟨rfl, rfl⟩)⟩
  · cases taken
    exact ⟨_, rfl, rfl, nofun, Or.inl ⟨rfl, nofun⟩⟩
  · cases taken
    refine ⟨_, rfl, rfl, fun route clock failing => ?_, Or.inl ⟨rfl, fun _ => rfl⟩⟩
    cases failing
    exact Or.inl rfl
  · cases taken
    exact ⟨_, rfl, rfl, nofun, Or.inr (Or.inl ⟨rfl, rfl⟩)⟩
  · cases taken
  · cases taken
    exact ⟨_, rfl, rfl, nofun, Or.inr (Or.inl ⟨rfl, rfl⟩)⟩
  · obtain ⟨answer, -, rfl⟩ := Option.map_eq_some_iff.mp taken
    refine ⟨_, rfl, rfl, fun route clock failing => Or.inr (withRpc_failing failing), Or.inl ⟨rfl, fun locked => ?_⟩⟩
    rwa [withRpc_locked] at locked

/-- A call gets past `bootstrap_lock` by taking it while it is free, and leaves the lock with the step by which it
goes on. -/
theorem Exclusive.advance (exclusive : Exclusive w) (there : w.tasks[task]? = some stage)
    (taken : Refresh.advance formats config w now task stage action = some x) : Exclusive x := by
  obtain ⟨next, tasks, -, -, moved⟩ := advance_moves taken
  intro other held found locked
  rw [tasks] at found
  by_cases same : task = other
  · subst same
    rw [List.getElem?_set_self (List.getElem?_eq_some_iff.mp there).1] at found
    cases found
    rcases moved with ⟨lock, before⟩ | ⟨-, free⟩ | ⟨-, lock⟩
    · rw [lock]
      exact exclusive task stage there (before locked)
    · cases free.symm.trans locked
    · exact lock
  · rw [List.getElem?_set_ne same] at found
    have owned := exclusive other held found locked
    rcases moved with ⟨lock, -⟩ | ⟨lock, -⟩ | ⟨free, -⟩
    · exact lock.trans owned
    · rw [lock, World.release, owned, if_neg fun taken => same (Option.some.inj taken).symm]
    · cases free.symm.trans owned

/-- A call that arrives joins at the end, and if it starts out past the lock it has taken it. It has no failure
to note. -/
theorem arrive_joins (config : Config) (w : World) (route : Route) (now : Instant) :
    ∃ next, (arrive config w route now).tasks = w.tasks ++ [next] ∧ (arrive config w route now).clock = w.clock ∧
      (∀ own clock, next ≠ .failing own clock) ∧
      (((arrive config w route now).lock = w.lock ∧ next.locked = false) ∨
        (w.lock = none ∧ (arrive config w route now).lock = some w.tasks.length)) := by
  unfold arrive
  split
  · exact ⟨_, rfl, rfl, nofun, Or.inl ⟨rfl, rfl⟩⟩
  · split
    · exact ⟨_, rfl, rfl, nofun, Or.inl ⟨rfl, rfl⟩⟩
    · split
      · rename_i free
        exact ⟨_, rfl, rfl, nofun, Or.inr ⟨free, rfl⟩⟩
      · exact ⟨_, rfl, rfl, nofun, Or.inl ⟨rfl, rfl⟩⟩
    · exact ⟨_, rfl, rfl, nofun, Or.inl ⟨rfl, rfl⟩⟩

/-- The calls there keep their places, and the new one holds the lock only if no other did. -/
theorem Exclusive.arrive (exclusive : Exclusive w) (route : Route) :
    Exclusive (Refresh.arrive config w route now) := by
  obtain ⟨next, tasks, -, -, moved⟩ := arrive_joins config w route now
  intro other held found locked
  rw [tasks] at found
  by_cases old : other < w.tasks.length
  · rw [List.getElem?_append_left old] at found
    have owned := exclusive other held found locked
    rcases moved with ⟨lock, -⟩ | ⟨free, -⟩
    · exact lock.trans owned
    · cases free.symm.trans owned
  · have last : other = w.tasks.length := by
      have bound := (List.getElem?_eq_some_iff.mp found).1
      rw [List.length_append, List.length_singleton] at bound
      omega
    subst last
    rw [List.getElem?_concat_length] at found
    cases found
    rcases moved with ⟨-, free⟩ | ⟨-, lock⟩
    · cases free.symm.trans locked
    · exact lock

/-- A step is an arrival, a reload, or a step of one call; reloads wait for the calls and leave all of
them alone. -/
theorem act_cases (taken : act formats config w now action = some x) :
    (∃ route, action = .arrive route ∧ x = arrive config w route now) ∨
      (action = .reload ∧ x = { w with state := w.state.reload }) ∨
      ∃ task stage, action.task = some task ∧ w.tasks[task]? = some stage ∧
        advance formats config w now task stage action = some x := by
  unfold act at taken
  split at taken
  · cases taken
    exact Or.inl ⟨_, rfl, rfl⟩
  · split at taken
    · cases taken
      exact Or.inr (Or.inl ⟨rfl, rfl⟩)
    · cases taken
  · obtain ⟨task, named, taken⟩ := Option.bind_eq_some_iff.mp taken
    obtain ⟨stage, there, taken⟩ := Option.bind_eq_some_iff.mp taken
    exact Or.inr (Or.inr ⟨task, stage, named, there, taken⟩)

theorem act_updates (taken : act formats config w now action = some x) :
    Updates formats config w now action x.state := by
  rcases act_cases taken with ⟨route, rfl, rfl⟩ | ⟨rfl, rfl⟩ | ⟨task, stage, named, there, taken⟩
  · rw [arrive_state]
    exact .same rfl
  · exact .reload
  · exact advance_updates named there taken

theorem Exclusive.act (exclusive : Exclusive w) (taken : Refresh.act formats config w now action = some x) :
    Exclusive x := by
  rcases act_cases taken with ⟨route, -, rfl⟩ | ⟨-, rfl⟩ | ⟨task, stage, -, there, taken⟩
  · exact exclusive.arrive route
  · exact exclusive
  · exact exclusive.advance there taken

theorem step_acts {label : Label} (taken : step formats config w label = some x) :
    w.clock ≤ label.now ∧ act formats config { w with clock := label.now } label.now label.action = some x :=
  Option.ite_none_right_eq_some.mp taken

/-- Time is passed by the label, never by what a call does. -/
theorem act_clock (taken : act formats config w now action = some x) : x.clock = w.clock := by
  rcases act_cases taken with ⟨route, -, rfl⟩ | ⟨-, rfl⟩ | ⟨task, stage, -, -, taken⟩
  · obtain ⟨-, -, clock, -⟩ := arrive_joins config w route now
    exact clock
  · rfl
  · obtain ⟨-, -, clock, -⟩ := advance_moves taken
    exact clock

theorem Exclusive.step {label : Label} (exclusive : Exclusive w)
    (taken : Refresh.step formats config w label = some x) : Exclusive x :=
  Exclusive.act (w := { w with clock := label.now }) exclusive (step_acts taken).2

/-- No refresh is due before `since + VERSION_RETRY`. -/
def Backing (since : Instant) (s : State) : Prop :=
  ∃ at_, s.versionRetryAt = some at_ ∧ since + versionRetry ≤ at_

theorem Backing.kept {since : Instant} {s t : State} (backing : Backing since s) (kept : Kept s t) :
    Backing since t := by
  obtain ⟨at_, running, bound⟩ := backing
  exact ⟨at_, kept.retry.trans running, bound⟩

/-- A refresh starts: the second `version_need`, under the lock, calls for one and the path admits it. -/
def Starts (formats : Formats Value Version) (config : Config) (w : World) (label : Label) : Prop :=
  (step formats config w label).isSome ∧ ∃ task route wait, label.action = .decide task true ∧
    w.tasks[task]? = some (.holding route) ∧ versionNeed config route label.now w.state = .refresh wait

/-- The call is not dropped between the failure of its refresh and the note of it. -/
def Noted (w : World) : Action → Prop
  | .leave task _ => ∀ route clock, w.tasks[task]? ≠ some (.failing route clock)
  | _ => True

/-- The step leaves the back-off of a stale answer at `since` alone: no Version call returns the
version in use while it is not suspect, and no refresh notes a failure from before `since`. -/
def Spares (since : Instant) (w : World) : Action → Prop
  | .version _ version _ _ => w.state.observation.masterVersion = some version → w.state.versionSuspect = true
  | .retreat task => ∀ route clock, w.tasks[task]? = some (.failing route clock) → since ≤ clock
  | _ => True

theorem advance_failing {route : Route} {clock : Instant}
    (taken : advance formats config w now task (.failing route clock) action = some x) :
    (∃ name, action = .retreat name) ∨ ∃ name failed, action = .leave name failed := by
  cases action with
  | retreat name => exact Or.inl ⟨name, rfl⟩
  | leave name failed => exact Or.inr ⟨name, failed, rfl⟩
  | _ => cases taken

/-- A refresh that failed holds the lock until it has noted the failure. -/
theorem failing_act {route : Route} {since : Instant} (failing : w.tasks[task]? = some (.failing route since))
    (noted : Noted w action) (taken : act formats config w now action = some x) :
    x.tasks[task]? = some (.failing route since) ∨ Backing since x.state := by
  have bound : task < w.tasks.length := (List.getElem?_eq_some_iff.mp failing).1
  have updates := act_updates taken
  rcases act_cases taken with ⟨own, -, rfl⟩ | ⟨-, rfl⟩ | ⟨other, stage, named, there, taken⟩
  · obtain ⟨next, tasks, -⟩ := arrive_joins config w own now
    rw [tasks, List.getElem?_append_left bound]
    exact Or.inl failing
  · exact Or.inl failing
  · by_cases same : other = task
    · subst same
      cases failing.symm.trans there
      rcases advance_failing taken with ⟨name, rfl⟩ | ⟨name, failed, rfl⟩
      · cases named
        simp only [advance, Option.some.injEq] at taken
        subst taken
        exact Or.inr ⟨_, rfl, le_rfl⟩
      · cases named
        exact absurd there (noted route since)
    · obtain ⟨next, tasks, -⟩ := advance_moves taken
      rw [tasks, List.getElem?_set_ne same]
      exact Or.inl failing

/-- Every failure that is still to be noted is of `since` or later. -/
structure Later (since : Instant) (w : World) : Prop where
  clock : since ≤ w.clock
  failing : ∀ (task : Nat) (route : Route) (clock : Instant), w.tasks[task]? = some (.failing route clock) →
    since ≤ clock

/-- Failures to come are of the time of their step, which is not before `since`; the others were there. -/
theorem Later.act {since : Instant} (later : Later since w) (current : since ≤ now)
    (taken : Refresh.act formats config w now action = some x) : Later since x := by
  refine ⟨(act_clock taken).symm ▸ later.clock, fun task route clock failing => ?_⟩
  rcases act_cases taken with ⟨own, -, rfl⟩ | ⟨-, rfl⟩ | ⟨other, stage, -, there, taken⟩
  · obtain ⟨next, tasks, -, other, -⟩ := arrive_joins config w own now
    rw [tasks] at failing
    by_cases old : task < w.tasks.length
    · rw [List.getElem?_append_left old] at failing
      exact later.failing task route clock failing
    · have joined : Stage.failing route clock ∈ [next] := by
        rw [List.getElem?_append_right (Nat.not_lt.mp old)] at failing
        exact List.mem_of_getElem? failing
      exact absurd (List.mem_singleton.mp joined).symm (other route clock)
  · exact later.failing task route clock failing
  · obtain ⟨next, tasks, -, fails, -⟩ := advance_moves taken
    rw [tasks] at failing
    by_cases same : other = task
    · subst same
      rw [List.getElem?_set_self (List.getElem?_eq_some_iff.mp there).1] at failing
      rcases fails route clock (Option.some.inj failing) with rfl | before
      · exact current
      · exact later.failing other route clock (there.trans (congrArg some before))
    · rw [List.getElem?_set_ne same] at failing
      exact later.failing task route clock failing

/-- After the failure of the refresh of `task` at `since`. -/
structure Failed (task : Nat) (since : Instant) (w : World) : Prop where
  later : Later since w
  held : (∃ route, w.tasks[task]? = some (.failing route since)) ∨ Backing since w.state ∨
    w.state.observation.masterVersion = none

/-- Until its failure is noted the refresh holds the lock, and once it is noted only an answer of Version may clear
the back-off. -/
theorem Failed.act {since : Instant} (failed : Failed task since w) (current : since ≤ now) (noted : Noted w action)
    (unanswered : action.succeeds = false) (taken : Refresh.act formats config w now action = some x) :
    Failed task since x := by
  refine ⟨failed.later.act current taken, ?_⟩
  rcases failed.held with ⟨route, failing⟩ | off
  · rcases failing_act failing noted taken with failing | backing
    · exact Or.inl ⟨route, failing⟩
    · exact Or.inr (Or.inl backing)
  · have keep : ∀ t, Kept w.state t → Backing since t ∨ t.observation.masterVersion = none := by
      intro t kept
      rcases off with backing | unused
      · exact Or.inl (backing.kept kept)
      · exact Or.inr (kept.version.trans unused)
    refine Or.inr ?_
    have updates := act_updates taken
    generalize x.state = t at updates
    cases updates with
    | kept _ kept _ => exact keep t kept
    | observe md status _ _ => exact keep _ (observe_kept _ _ _ _ _ _ _).1
    | version => cases unanswered
    | retreat failing =>
      have bound := failed.later.failing _ _ _ failing
      exact Or.inl ⟨_, rfl, Nat.add_le_add_right bound versionRetry⟩
    | reload => exact Or.inr rfl

theorem Failed.step {since : Instant} {label : Label} (failed : Failed task since w) (noted : Noted w label.action)
    (unanswered : label.action.succeeds = false) (taken : Refresh.step formats config w label = some x) :
    Failed task since x := by
  obtain ⟨time, taken⟩ := step_acts taken
  have current : since ≤ label.now := failed.later.clock.trans time
  exact Failed.act (w := { w with clock := label.now }) ⟨⟨current, failed.later.failing⟩, failed.held⟩ current noted
    unanswered taken

/-- The moment of the failure. -/
theorem failed_fail {since : Instant} (exclusive : Exclusive w)
    (taken : Refresh.step formats config w ⟨since, .fail task⟩ = some x) : Failed task since x := by
  obtain ⟨-, taken⟩ := step_acts taken
  rcases act_cases taken with ⟨_, impossible, -⟩ | ⟨impossible, -⟩ | ⟨named, stage, own, there, taken⟩
  · cases impossible
  · cases impossible
  cases own
  have bound : task < w.tasks.length := (List.getElem?_eq_some_iff.mp there).1
  cases stage with
  | fetching route required rpc =>
    cases required with
    | true => cases taken
    | false =>
      cases taken
      have here : (w.tasks.set task (.failing route since))[task]? = some (.failing route since) :=
        List.getElem?_set_self bound
      refine ⟨⟨le_rfl, fun other own clock failing => ?_⟩, Or.inl ⟨route, here⟩⟩
      by_cases same : task = other
      · subst same
        cases here.symm.trans failing
        exact le_rfl
      · rw [World.move, List.getElem?_set_ne same] at failing
        have first := exclusive task _ there rfl
        have second := exclusive other _ failing rfl
        exact absurd (Option.some.inj (first.symm.trans second)) same
  | _ => cases taken

/-- Nobody starts a refresh meanwhile: while the failure is not noted the lock is held, then the back-off runs, and
without a version in use no refresh is due. -/
theorem Failed.starts {since : Instant} {label : Label} (failed : Failed task since w) (exclusive : Exclusive w)
    (starts : Starts formats config w label) : since + versionRetry ≤ label.now := by
  obtain ⟨-, other, route, wait, -, holding, due⟩ := starts
  obtain ⟨used, expired⟩ := versionNeed_refresh due
  rcases failed.held with ⟨own, failing⟩ | ⟨at_, running, bound⟩ | unused
  · have first := exclusive task _ failing rfl
    have second := exclusive other _ holding rfl
    cases first.symm.trans second
    cases failing.symm.trans holding
  · exact bound.trans (expired at_ running)
  · rw [unused] at used
    cases used

/-- After a Version call at `since` that returned the suspect version. -/
structure Stale (version : String) (since : Instant) (w : World) : Prop where
  clock : since ≤ w.clock
  held : since + versionRetry ≤ w.clock ∨
    (w.state.observation.masterVersion = some version → Backing since w.state)

/-- The back-off of a stale answer is over, or it goes on: a step that spares it leaves it or sets a later one. -/
theorem Stale.step {version : String} {since : Instant} {label : Label} (stale : Stale version since w)
    (used : w.state.observation.masterVersion = some version)
    (spares : label.now < since + versionRetry → Spares since w label.action)
    (taken : Refresh.step formats config w label = some x) : Stale version since x := by
  obtain ⟨time, taken⟩ := step_acts taken
  have clock : x.clock = label.now := act_clock taken
  have current : since ≤ label.now := stale.clock.trans time
  refine ⟨current.trans_eq clock.symm, ?_⟩
  by_cases past : since + versionRetry ≤ label.now
  · exact Or.inl (past.trans_eq clock.symm)
  have backing : Backing since w.state := by
    rcases stale.held with earlier | backing
    · exact absurd (earlier.trans time) past
    · exact backing used
  have spares := spares (Nat.not_le.mp past)
  refine Or.inr fun after => ?_
  have updates := act_updates taken
  generalize label.action = action at spares updates
  generalize x.state = t at updates after
  cases updates with
  | kept _ kept _ => exact backing.kept kept
  | observe md status _ _ => exact backing.kept (observe_kept _ _ _ _ _ _ _).1
  | version _ announced bodyResource asset =>
    obtain ⟨retry, announcedHere, -⟩ := adopt_retry config announced bodyResource asset label.now w.state
    cases announcedHere.symm.trans after
    exact ⟨label.now + versionRetry, retry.trans (if_pos ⟨spares used, used⟩), Nat.add_le_add_right current versionRetry⟩
  | retreat failing =>
    exact ⟨_, rfl, Nat.add_le_add_right (spares _ _ failing) versionRetry⟩
  | reload => cases after

/-- A refresh with this version in use waits for the end of the back-off. -/
theorem Stale.starts {version : String} {since : Instant} {label : Label} (stale : Stale version since w)
    (used : w.state.observation.masterVersion = some version) (starts : Starts formats config w label) :
    since + versionRetry ≤ label.now := by
  obtain ⟨enabled, _, _, _, -, -, due⟩ := starts
  obtain ⟨x, taken⟩ := Option.isSome_iff_exists.mp enabled
  rcases stale.held with past | backing
  · exact past.trans (step_acts taken).1
  · obtain ⟨at_, running, bound⟩ := backing used
    exact bound.trans ((versionNeed_refresh due).2 at_ running)

/-- The moment of the answer. -/
theorem stale_version {version : String} {bodyResource asset : Option String} {since : Instant}
    (suspect : w.state.versionSuspect = true) (used : w.state.observation.masterVersion = some version)
    (taken : Refresh.step formats config w ⟨since, .version task version bodyResource asset⟩ = some x) :
    Stale version since x := by
  obtain ⟨-, taken⟩ := step_acts taken
  have clock : x.clock = since := act_clock taken
  refine ⟨clock.ge, Or.inr fun after => ?_⟩
  have updates := act_updates taken
  generalize x.state = t at updates after
  cases updates with
  | kept unanswered _ _ => cases unanswered
  | version =>
    obtain ⟨retry, -, -⟩ := adopt_retry config version bodyResource asset since w.state
    exact ⟨since + versionRetry, retry.trans (if_pos ⟨suspect, used⟩), le_rfl⟩

theorem exclusive_reach (reach : Run.Reach (step formats config) (fun _ _ => True) { state := State.new config } w) :
    Exclusive w := by
  refine reach.invariant (fun task stage found _ => ?_) fun _ _ _ exclusive _ taken => exclusive.step taken
  cases found

/-- The back-off of version refreshes. After a failed refresh that was noted none starts within
`VERSION_RETRY` unless a Version call succeeded; after a Version call that returned the suspect
version none starts within it while that version stays in use, provided that every other step spares
the back-off; and only a mismatch for the version in use makes it suspect. -/
theorem refresh_backs_off (formats : Formats Value Version) (config : Config) :
    (∀ w x y task since between label,
      Run.Reach (step formats config) (fun _ _ => True) { state := State.new config } w →
      step formats config w ⟨since, .fail task⟩ = some x → Run.Path (step formats config) x between y →
      (∀ visit ∈ between, Noted visit.1 visit.2.action) → Starts formats config y label →
      (∃ visit ∈ between, visit.2.action.succeeds = true) ∨ since + versionRetry ≤ label.now) ∧
    (∀ w x y task version bodyResource asset since between label,
      Run.Reach (step formats config) (fun _ _ => True) { state := State.new config } w →
      w.state.versionSuspect = true → w.state.observation.masterVersion = some version →
      step formats config w ⟨since, .version task version bodyResource asset⟩ = some x →
      Run.Path (step formats config) x between y →
      (∀ visit ∈ between, visit.1.state.observation.masterVersion = some version) →
      y.state.observation.masterVersion = some version →
      (∀ visit ∈ between, visit.2.now < since + versionRetry → Spares since visit.1 visit.2.action) →
      Starts formats config y label → since + versionRetry ≤ label.now) ∧
    (∀ w x label, Run.Reach (step formats config) (fun _ _ => True) { state := State.new config } w →
      step formats config w label = some x → w.state.versionSuspect = false → x.state.versionSuspect = true →
      ∃ task stage route version md status, label.action = .observe task md status ∧
        w.tasks[task]? = some stage ∧ stage.rpc = some (.sent route (some version)) ∧
        applicationCode md = some masterVersionMismatch ∧ w.state.observation.masterVersion = some version) := by
  refine ⟨?_, ?_, ?_⟩
  · intro w x y task since between label reach failed path noted starts
    by_cases answered : ∃ visit ∈ between, visit.2.action.succeeds = true
    · exact Or.inl answered
    have exclusive := exclusive_reach reach
    have after : Exclusive y ∧ Failed task since y := by
      refine path.invariant (P := fun w => Exclusive w ∧ Failed task since w)
        ⟨exclusive.step failed, failed_fail exclusive failed⟩ fun s l t held member taken => ?_
      have unanswered : l.action.succeeds = false := by
        cases succeeds : l.action.succeeds with
        | false => rfl
        | true => exact absurd ⟨_, member, succeeds⟩ answered
      exact ⟨held.1.step taken, held.2.step (noted _ member) unanswered taken⟩
    exact Or.inr (after.2.starts after.1 starts)
  · intro w x y task version bodyResource asset since between label _ suspect used answered path inUse usedLast spares
      starts
    have after : Stale version since y := by
      refine path.invariant (stale_version suspect used answered) fun s l t held member taken => ?_
      exact held.step (inUse _ member) (spares _ member) taken
    exact after.starts usedLast starts
  · intro w x label _ taken calm raised
    have updates := act_updates (step_acts taken).2
    generalize label.action = action at updates
    generalize x.state = t at updates raised
    cases updates with
    | kept _ _ same => cases (same.trans calm).symm.trans raised
    | observe md status there sent =>
      obtain ⟨code, carried, current⟩ := (observe_kept _ _ _ _ _ _ _).2 raised calm
      obtain ⟨version, rfl⟩ := Option.isSome_iff_exists.mp carried
      exact ⟨_, _, _, version, md, status, rfl, there, sent, code, current.symm⟩
    | version _ version bodyResource asset =>
      cases (adopt_retry config version bodyResource asset label.now w.state).2.2.symm.trans raised
    | retreat => cases calm.symm.trans raised
    | reload => cases raised

def mismatch : HeaderMap := [("x-sirius-error-code", some "MASTER_VERSION_MISMATCH")]

/-- A call reads announcements and a Version call announces `v1`; the answer to the former calls it stale
while two more Version calls are under way. -/
def suspected : List Label :=
  [⟨1, .arrive .version⟩, ⟨1, .send 0 .version⟩, ⟨2, .observe 0 [] (some 0)⟩, ⟨2, .version 0 "v1" none none⟩,
    ⟨2, .promote 0 "p1"⟩, ⟨2, .leave 0 false⟩,
    ⟨3, .arrive .announcements⟩, ⟨3, .send 1 .announcements⟩, ⟨3, .arrive .version⟩, ⟨3, .arrive .version⟩,
    ⟨4, .observe 1 mismatch (some 9)⟩, ⟨4, .leave 1 false⟩, ⟨4, .send 2 .version⟩, ⟨4, .send 3 .version⟩,
    ⟨5, .observe 2 [] (some 0)⟩]

theorem suspected_runs : (Run.exec (step sampleFormats sampleConfig) { state := State.new sampleConfig }
    suspected).isSome = true := by decide +kernel

def suspectedWorld : World := (Run.exec (step sampleFormats sampleConfig) _ suspected).get suspected_runs

theorem suspected_reach : Run.Reach (step sampleFormats sampleConfig) (fun _ _ => True)
    { state := State.new sampleConfig } suspectedWorld :=
  Run.reach_of_exec (Option.some_get suspected_runs).symm

theorem answered_runs : (step sampleFormats sampleConfig suspectedWorld ⟨5, .version 2 "v1" none none⟩).isSome = true := by
  decide +kernel

def answeredWorld : World :=
  (step sampleFormats sampleConfig suspectedWorld ⟨5, .version 2 "v1" none none⟩).get answered_runs

/-- The next call is told again that its version is stale, and the call after it asks for a refresh. -/
def reported (since : Instant) : List Label :=
  [⟨7, .arrive .announcements⟩, ⟨7, .send 4 .announcements⟩, ⟨8, .observe 4 mismatch (some 9)⟩,
    ⟨since, .arrive .announcements⟩, ⟨since, .acquire 5⟩]

/-- A refresh starts after `labels`, which all leave `v1` in use. -/
theorem starts_after (start : World) (labels : List Label) (now : Instant) (task : Nat)
    (run : ((Run.exec (step sampleFormats sampleConfig) start labels).map fun y =>
        (y.state.observation.masterVersion, y.tasks[task]?,
          versionNeed sampleConfig .announcements now y.state, decide (y.clock ≤ now))) =
      some (some "v1", some (.holding .announcements), .refresh true, true))
    (used : (Run.visits (step sampleFormats sampleConfig) start labels).all
      (fun visit => visit.1.state.observation.masterVersion == some "v1") = true) :
    ∃ y, Run.Path (step sampleFormats sampleConfig) start (Run.visits (step sampleFormats sampleConfig) start labels) y ∧
      (∀ visit ∈ Run.visits (step sampleFormats sampleConfig) start labels,
        visit.1.state.observation.masterVersion = some "v1") ∧
      y.state.observation.masterVersion = some "v1" ∧
      Starts sampleFormats sampleConfig y ⟨now, .decide task true⟩ := by
  obtain ⟨y, ran, shown⟩ := Option.map_eq_some_iff.mp run
  simp only [Prod.mk.injEq, decide_eq_true_eq] at shown
  obtain ⟨current, holding, due, time⟩ := shown
  refine ⟨y, Run.path_of_exec ran, fun visit member => ?_, current, ?_, task, .announcements, true, rfl, holding, due⟩
  · exact beq_iff_eq.mp (List.all_eq_true.mp used visit member)
  · simp only [step, act, Action.task, Option.bind_some, holding, advance, if_pos time]
    rfl

theorem reported_spares {start : World} {since : Instant} :
    ∀ visit ∈ Run.visits (step sampleFormats sampleConfig) start (reported since),
      Spares 5 visit.1 visit.2.action := by
  intro visit member
  have listed := Run.mem_visits member
  simp only [reported, List.mem_cons, List.not_mem_nil, or_false] at listed
  rcases listed with same | same | same | same | same <;> rw [same] <;> exact trivial

/-- A call runs a refresh. -/
def refreshed : List Label := [⟨6, .arrive .announcements⟩, ⟨6, .acquire 4⟩, ⟨6, .decide 4 true⟩]

theorem refreshed_runs : (Run.exec (step sampleFormats sampleConfig) suspectedWorld refreshed).isSome = true := by
  decide +kernel

def refreshedWorld : World := (Run.exec (step sampleFormats sampleConfig) _ refreshed).get refreshed_runs

theorem failed_runs : (step sampleFormats sampleConfig refreshedWorld ⟨7, .fail 4⟩).isSome = true := by decide +kernel

def failedWorld : World := (step sampleFormats sampleConfig refreshedWorld ⟨7, .fail 4⟩).get failed_runs

def noted : List Label :=
  [⟨7, .retreat 4⟩, ⟨7 + versionRetry, .arrive .announcements⟩, ⟨7 + versionRetry, .acquire 5⟩]

/-- Both back-offs end: a refresh starts 30 seconds after the failed one, and one 30 seconds after the
stale answer. -/
theorem refresh_backs_off_patient :
    (∃ between y, Run.Path (step sampleFormats sampleConfig) failedWorld between y ∧
      Starts sampleFormats sampleConfig y ⟨7 + versionRetry, .decide 5 true⟩ ∧
      ((∃ visit ∈ between, visit.2.action.succeeds = true) ∨ 7 + versionRetry ≤ 7 + versionRetry)) ∧
    ∃ between y, Run.Path (step sampleFormats sampleConfig) answeredWorld between y ∧
      Starts sampleFormats sampleConfig y ⟨5 + versionRetry, .decide 5 true⟩ ∧ 5 + versionRetry ≤ 5 + versionRetry := by
  obtain ⟨afterFailure, afterAnswer, -⟩ := refresh_backs_off sampleFormats sampleConfig
  constructor
  · obtain ⟨y, path, -, -, starts⟩ := starts_after failedWorld noted (7 + versionRetry) 5 (by decide +kernel)
      (by decide +kernel)
    have reach := suspected_reach.exec (Option.some_get refreshed_runs).symm
    refine ⟨_, y, path, starts, afterFailure refreshedWorld failedWorld y 4 7 _ _ reach
      (Option.some_get failed_runs).symm path (fun visit member => ?_) starts⟩
    have listed := Run.mem_visits member
    simp only [noted, List.mem_cons, List.not_mem_nil, or_false] at listed
    rcases listed with same | same | same <;> rw [same] <;> exact trivial
  · obtain ⟨y, path, used, last, starts⟩ := starts_after answeredWorld (reported (5 + versionRetry)) (5 + versionRetry) 5
      (by decide +kernel) (by decide +kernel)
    exact ⟨_, y, path, starts, afterAnswer suspectedWorld answeredWorld y 2 "v1" none none 5 _ _ suspected_reach
      (by decide +kernel) (by decide +kernel) (Option.some_get answered_runs).symm path used last
      (fun visit member _ => reported_spares visit member) starts⟩

/-- The second Version call answers after the first and takes the back-off away. -/
theorem refresh_hasty : ∃ w x y task version bodyResource asset since between label,
    Run.Reach (step sampleFormats sampleConfig) (fun _ _ => True) { state := State.new sampleConfig } w ∧
    w.state.versionSuspect = true ∧ w.state.observation.masterVersion = some version ∧
    step sampleFormats sampleConfig w ⟨since, .version task version bodyResource asset⟩ = some x ∧
    Run.Path (step sampleFormats sampleConfig) x between y ∧
    (∀ visit ∈ between, visit.1.state.observation.masterVersion = some version) ∧
    y.state.observation.masterVersion = some version ∧
    Starts sampleFormats sampleConfig y label ∧ label.now < since + versionRetry := by
  obtain ⟨y, path, used, last, starts⟩ := starts_after answeredWorld
    (⟨6, .observe 3 [] (some 0)⟩ :: ⟨6, .version 3 "v1" none none⟩ :: reported 9) 9 5 (by decide +kernel)
    (by decide +kernel)
  exact ⟨suspectedWorld, answeredWorld, y, 2, "v1", none, none, 5, _, _, suspected_reach, by decide +kernel,
    by decide +kernel, (Option.some_get answered_runs).symm, path, used, last, starts, by decide⟩

end SiriusProxy.Client.Refresh
