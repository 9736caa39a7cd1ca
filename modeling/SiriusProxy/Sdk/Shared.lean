import SiriusProxy.Sdk.Restart

namespace SiriusProxy.Sdk.Shared

inductive Caller where
  | auth
  | keepalive
  deriving DecidableEq, Repr

/-- A task that wants a `cache.login`; `seen` is the number of completed ones it noted before it
waits for the login mutex. -/
structure Request where
  caller : Caller
  seen : Option Nat := none
  deriving DecidableEq, Repr

/-- Where the holder of the login mutex of a process is. -/
inductive Phase where
  | waiting
  | locked
  | refreshed
  | cleared
  | sent
  | recorded
  deriving DecidableEq, Repr

structure Login where
  request : Request
  phase : Phase
  deriving DecidableEq, Repr

/-- A file that is written but not yet renamed; `outcome` tells a `cache.login` from a
`mark_stale`. The state mutex is held meanwhile. -/
structure Write where
  content : Persisted
  outcome : Bool
  deriving DecidableEq, Repr

/-- The session of the identity in one process, shared by its regions. -/
structure Process where
  state : State
  attempts : Nat := 0
  requests : List Request := []
  login : Option Login := none
  pending : Option Write := none

/-- The processes that share a state directory. `holder` has the lock file. The history notes the
refusals that were ever in the file and the times of all successful logins. -/
structure World where
  clock : Instant := 0
  file : Option Persisted := none
  holder : Option Nat := none
  processes : Nat → Option Process := fun _ => none
  written : List Refusal := []
  validations : List Instant := []

/-- One step of one process. A task may stop at any wait (`abandon`, `leave`), for whatever
reason: its deadline, the login interval, the SDK path. -/
inductive Label where
  | tick (duration : Nat)
  | start (pid : Nat)
  | crash (pid : Nat)
  | arrive (pid : Nat) (caller : Caller)
  | queue (pid index : Nat)
  | abandon (pid index : Nat)
  | enter (pid index : Nat)
  | lock (pid : Nat)
  | refresh (pid : Nat)
  | check (pid : Nat)
  | send (pid : Nat)
  | accepted (pid : Nat) (account : SdkAccount)
  | refused (pid : Nat) (code : Int)
  | failed (pid : Nat)
  | leave (pid : Nat)
  | markStale (pid generation : Nat)
  | rename (pid : Nat)

def Phase.holds : Phase → Bool
  | .waiting => false
  | _ => true

def Process.phase (q : Process) : Option Phase := q.login.map (·.phase)

def Process.moved (q : Process) (phase : Phase) : Process :=
  { q with login := q.login.map fun l => { l with phase := phase } }

/-- Whether a `persist` of the login task is under way. -/
def Process.recording (q : Process) : Bool := q.pending.any (·.outcome)

def Process.record (identity : Identity) (q : Process) (s : State) (outcome : Bool) : Process :=
  { q with state := s, pending := some { content := s.persisted identity, outcome := outcome } }

variable (L : Library) (identity : Identity) (retry interval : Nat)

/-- The check before the login mutex and, again, under the lock file. -/
def Process.clear (now : Instant) (caller : Caller) (q : Process) : Bool :=
  match caller with
  | .auth => (q.state.refusalAt now retry).isNone
  | .keepalive => q.state.keepaliveDue now interval

/-- Whether a cleared task sends its own `cache.login`. -/
def Process.due (now : Instant) (request : Request) (q : Process) : Bool :=
  match request.caller with
  | .auth => (q.state.reusable L now).isNone && request.seen == some q.attempts
  | .keepalive => true

def World.put (w : World) (pid : Nat) (q : Process) : World :=
  { w with processes := fun k => if k = pid then some q else w.processes k }

def World.released (w : World) (pid : Nat) : World :=
  { w with holder := w.holder.filter fun k => decide (k ≠ pid) }

/-- Everything a running process does; `q` is its state. -/
def act (w : World) (q : Process) : Label → Option World
  | .crash pid =>
    some { w.released pid with processes := fun k => if k = pid then none else w.processes k }
  | .arrive pid caller =>
    if q.pending.isNone ∧ q.clear retry interval w.clock caller then
      some (w.put pid { q with requests := q.requests ++ [{ caller := caller }] })
    else none
  | .queue pid index => q.requests[index]?.bind fun request =>
    if q.pending.isNone ∧ (request.caller = .auth → (q.state.reusable L w.clock).isNone) then
      some (w.put pid { q with requests := q.requests.set index { request with seen := some q.attempts } })
    else none
  | .abandon pid index => some (w.put pid { q with requests := q.requests.eraseIdx index })
  | .enter pid index => q.requests[index]?.bind fun request =>
    if q.login.isNone ∧ request.seen.isSome then
      some (w.put pid
        { q with
          requests := q.requests.eraseIdx index
          login := some { request := request, phase := .waiting } })
    else none
  | .lock pid =>
    if q.phase = some .waiting ∧ w.holder = none then
      some { w.put pid (q.moved .locked) with holder := some pid }
    else none
  | .refresh pid =>
    if q.pending.isNone ∧ q.phase = some .locked then
      some (w.put pid { q.moved .refreshed with state := q.state.merge L identity w.clock w.file })
    else none
  | .check pid =>
    if q.pending.isNone ∧ q.phase = some .refreshed ∧
        q.login.any (fun l => q.clear retry interval w.clock l.request.caller) then
      some (w.put pid (q.moved .cleared))
    else none
  | .send pid =>
    if q.pending.isNone ∧ q.phase = some .cleared ∧ q.login.any (fun l => q.due L w.clock l.request) then
      some (w.put pid (q.moved .sent))
    else none
  | .accepted pid account =>
    if q.pending.isNone ∧ q.phase = some .sent then
      let at_ := w.clock + 1
      some
        { w.put pid ({ q.moved .recorded with attempts := q.attempts + 1 }.record identity
            ((q.state.validated account at_).merge L identity at_ w.file) true) with
          clock := at_
          validations := at_ :: w.validations }
    else none
  | .refused pid code =>
    if q.pending.isNone ∧ q.phase = some .sent then
      let at_ := w.clock + 1
      some
        { w.put pid ({ q.moved .recorded with attempts := q.attempts + 1 }.record identity
            ((q.state.refused code at_).merge L identity at_ w.file) true) with
          clock := at_ }
    else none
  | .failed pid =>
    if q.phase = some .sent then some (w.put pid { q.moved .recorded with attempts := q.attempts + 1 })
    else none
  | .leave pid => q.login.bind fun l =>
    if q.recording then none
    else if l.phase.holds then some (w.released pid |>.put pid { q with login := none })
    else some (w.put pid { q with login := none })
  | .markStale pid generation =>
    if q.pending.isNone then
      if q.state.concerns generation then
        if q.state.account.isSome then
          some (w.put pid (q.record identity
            (({ q.state with stale := true } : State).merge L identity w.clock w.file) false))
        else some (w.put pid { q with state := { q.state with stale := true } })
      else some w
    else none
  | .rename pid => q.pending.map fun p =>
    { w.put pid { q with pending := none } with
      file := some p.content
      written := p.content.refusal.toList ++ w.written }
  | .tick _ => none
  | .start _ => none

def Label.pid : Label → Nat
  | .tick _ => 0
  | .start pid => pid
  | .crash pid => pid
  | .arrive pid _ => pid
  | .queue pid _ => pid
  | .abandon pid _ => pid
  | .enter pid _ => pid
  | .lock pid => pid
  | .refresh pid => pid
  | .check pid => pid
  | .send pid => pid
  | .accepted pid _ => pid
  | .refused pid _ => pid
  | .failed pid => pid
  | .leave pid => pid
  | .markStale pid _ => pid
  | .rename pid => pid

def step (w : World) : Label → Option World
  | .tick duration => some { w with clock := w.clock + duration }
  | .start pid =>
    if (w.processes pid).isNone then some (w.put pid { state := fresh L identity w.clock w.file }) else none
  | l => (w.processes l.pid).bind fun q => act L identity retry interval w q l

end SiriusProxy.Sdk.Shared
