import SiriusProxy.Client.Catalog

namespace SiriusProxy.Client.Global
open Master.Update (Request)

/-- A VERSION response as its state update takes it. -/
structure Announcement where
  master : String
  resource : Option String
  at_ : Instant

/-- Where the build is that holds `snapshot_build`. From `attempt` to `pausing` it is in `fetch_catalog_hash`,
at the attempt with a number, until a deadline. -/
inductive Phase where
  | idle
  | attempt (plan : Plan) (deadline : Instant) (attempt : Nat)
  | waiting (plan : Plan) (deadline : Instant) (attempt : Nat)
  | pausing (plan : Plan) (deadline : Instant) (attempt : Nat) (wake : Instant)
  | fetched (plan : Plan) (hash : Option String)
  | ready (plan : Plan) (hash : String)
  | publishing (plan : Plan) (hash protocolVersion : String)

namespace Phase

def plan : Phase → Option Plan
  | .idle => none
  | .attempt plan _ _ | .waiting plan _ _ | .pausing plan _ _ _ | .fetched plan _ | .ready plan _
  | .publishing plan _ _ => some plan

/-- The version whose hash the build is about to remember. -/
def fetching : Phase → Option String
  | .attempt plan _ _ | .waiting plan _ _ | .pausing plan _ _ _ | .fetched plan _ => some plan.version
  | _ => none

def found : Phase → Option (Plan × String)
  | .fetched plan (some hash) | .ready plan hash | .publishing plan hash _ => some (plan, hash)
  | _ => none

end Phase

/-- The state, the clocks and the build, with the VERSION responses, the requests and their answers so far,
newest first. `begun` counts the builds that fetch, `lost` those that were given up before they remembered. -/
structure World where
  state : State
  now : Instant := 0
  utc : Instant := 0
  protocolVersion : String
  phase : Phase := .idle
  announced : List Announcement := []
  sent : List Request := []
  answers : List (Request × Master.Update.Response (List UInt8)) := []
  begun : Nat := 0
  lost : Nat := 0

inductive Label where
  | tick (now utc : Instant)
  | observe (md : HeaderMap) (status : Option Nat) (sentVersion : Option String)
  | version (version : String) (resource asset : Option String)
  | callFailed
  | reload (protocolVersion : String)
  | start
  | send
  | answer (response : Option (Master.Update.Response (List UInt8)))
  | resume
  | expire
  | remember
  | prepare
  | publish
  | cancel

section Step
variable (settings : Settings)

def Plan.request (plan : Plan) : Request :=
  ⟨(globalCatalogUrls plan.root settings.config.platform plan.version).2.1, plan.basic⟩

/-- The head of the loop of `fetch_catalog_hash`. -/
def fetch (plan : Plan) (deadline : Instant) (attempt : Nat) : Phase :=
  if attempt < settings.snapshot.network.attempts then .attempt plan deadline attempt else .fetched plan none

def planned (plan : Plan) (now : Instant) : Phase :=
  match plan.cached with
  | some (some hash) => .ready plan hash
  | some none => .idle
  | none => fetch settings plan (now + fromSecs settings.snapshot.network.updateTimeoutSeconds) 0

/-- The body of the loop behind an attempt. -/
def attempted (plan : Plan) (deadline : Instant) (attempt : Nat) (now : Instant) :
    Except Master.Update.UpdateError String → Phase
  | .ok hash => .fetched plan (some hash)
  | .error e =>
    if settings.snapshot.network.retry e attempt then
      .pausing plan deadline attempt (now + settings.snapshot.network.delay attempt * 1000000)
    else .fetched plan none

namespace World
variable (w : World)

def new (config : Config) (protocolVersion : String) : World := { state := .new config, protocolVersion }

def start : World :=
  match settings.look w.state w.now w.utc with
  | .error _ | .ok none => w
  | .ok (some plan) =>
    { w with phase := planned settings plan w.now, begun := w.begun + if plan.cached.isNone then 1 else 0 }

def answer (plan : Plan) (deadline : Instant) (attempt : Nat)
    (response : Option (Master.Update.Response (List UInt8))) : World :=
  { w with
    phase := attempted settings plan deadline attempt w.now (once response)
    answers := (response.map fun r => (plan.request settings, r)).toList ++ w.answers }

def remember (plan : Plan) (hash : Option String) : World :=
  { w with
    state := { w.state with catalogHash := some ⟨plan.root, plan.version, hash, w.now⟩ }
    phase := match hash with
      | some hash => .ready plan hash
      | none => .idle }

def publish (plan : Plan) (hash protocolVersion : String) : World :=
  match settings.publish plan hash protocolVersion w.state with
  | .error _ => { w with phase := .idle }
  | .ok state => { w with state, phase := .idle }

def cancel : World :=
  { w with phase := .idle, lost := w.lost + if w.phase.fetching.isSome then 1 else 0 }

end World

/-- One build runs at a time, and everything else comes in any order. The clock does not run backwards. -/
def step (rfc3339 : String → Bool) (w : World) : Label → Option World
  | .tick now utc => if w.now ≤ now then some { w with now, utc } else none
  | .observe md status sentVersion =>
    let client := w.state.client.observe rfc3339 settings.config md status sentVersion w.utc
    some { w with state := { w.state with client } }
  | .version version resource asset =>
    let state := w.state.version settings.config version resource asset w.now w.utc
    some { w with state, announced := ⟨version, resource, w.utc⟩ :: w.announced }
  | .callFailed => some { w with state := { w.state with client := w.state.client.callFailed w.utc } }
  | .reload protocolVersion => some { w with state := w.state.reload, protocolVersion }
  | .start => match w.phase with
    | .idle => some (w.start settings)
    | _ => none
  | .send => match w.phase with
    | .attempt plan deadline attempt =>
      some { w with phase := .waiting plan deadline attempt, sent := plan.request settings :: w.sent }
    | _ => none
  | .answer response => match w.phase with
    | .waiting plan deadline attempt => some (w.answer settings plan deadline attempt response)
    | _ => none
  | .resume => match w.phase with
    | .pausing plan deadline attempt wake =>
      if wake ≤ w.now then some { w with phase := fetch settings plan deadline (attempt + 1) } else none
    | _ => none
  | .expire => match w.phase with
    | .attempt plan deadline _ | .waiting plan deadline _ | .pausing plan deadline _ _ =>
      if deadline ≤ w.now then some { w with phase := .fetched plan none } else none
    | _ => none
  | .remember => match w.phase with
    | .fetched plan hash => some (w.remember plan hash)
    | _ => none
  | .prepare => match w.phase with
    | .ready plan hash => some { w with phase := .publishing plan hash w.protocolVersion }
    | _ => none
  | .publish => match w.phase with
    | .publishing plan hash protocolVersion => some (w.publish settings plan hash protocolVersion)
    | _ => none
  | .cancel => match w.phase with
    | .idle => none
    | _ => some w.cancel

end Step

/-- What a step does, from which state. -/
inductive Moves (settings : Settings) (rfc3339 : String → Bool) (w : World) : World → Prop
  | tick {now utc : Instant} (later : w.now ≤ now) : Moves settings rfc3339 w { w with now, utc }
  | observe {md : HeaderMap} {status : Option Nat} {sentVersion : Option String} :
      Moves settings rfc3339 w { w with state :=
        { w.state with client := w.state.client.observe rfc3339 settings.config md status sentVersion w.utc } }
  | version {version : String} {resource asset : Option String} :
      Moves settings rfc3339 w { w with
        state := w.state.version settings.config version resource asset w.now w.utc
        announced := ⟨version, resource, w.utc⟩ :: w.announced }
  | callFailed :
      Moves settings rfc3339 w { w with state := { w.state with client := w.state.client.callFailed w.utc } }
  | reload {protocolVersion : String} : Moves settings rfc3339 w { w with state := w.state.reload, protocolVersion }
  | start (idle : w.phase = .idle) : Moves settings rfc3339 w (w.start settings)
  | send {plan : Plan} {deadline : Instant} {attempt : Nat} (due : w.phase = .attempt plan deadline attempt) :
      Moves settings rfc3339 w { w with phase := .waiting plan deadline attempt, sent := plan.request settings :: w.sent }
  | answer {plan : Plan} {deadline : Instant} {attempt : Nat} {response : Option (Master.Update.Response (List UInt8))}
      (waiting : w.phase = .waiting plan deadline attempt) :
      Moves settings rfc3339 w (w.answer settings plan deadline attempt response)
  | resume {plan : Plan} {deadline wake : Instant} {attempt : Nat} (pausing : w.phase = .pausing plan deadline attempt wake)
      (awake : wake ≤ w.now) : Moves settings rfc3339 w { w with phase := fetch settings plan deadline (attempt + 1) }
  | expire {plan : Plan} (going : w.phase.plan = some plan) (fetching : w.phase.fetching = some plan.version) :
      Moves settings rfc3339 w { w with phase := .fetched plan none }
  | remember {plan : Plan} {hash : Option String} (fetched : w.phase = .fetched plan hash) :
      Moves settings rfc3339 w (w.remember plan hash)
  | prepare {plan : Plan} {hash : String} (ready : w.phase = .ready plan hash) :
      Moves settings rfc3339 w { w with phase := .publishing plan hash w.protocolVersion }
  | publish {plan : Plan} {hash protocolVersion : String} (publishing : w.phase = .publishing plan hash protocolVersion) :
      Moves settings rfc3339 w (w.publish settings plan hash protocolVersion)
  | cancel : Moves settings rfc3339 w w.cancel

theorem moves_of_step {settings : Settings} {rfc3339 : String → Bool} {w x : World} {label : Label}
    (taken : step settings rfc3339 w label = some x) : Moves settings rfc3339 w x := by
  cases label with
  | tick now utc =>
    obtain ⟨later, same⟩ := Option.ite_none_right_eq_some.mp taken
    cases same
    exact .tick later
  | observe md status sentVersion =>
    cases taken
    exact .observe
  | version version resource asset =>
    cases taken
    exact .version
  | callFailed =>
    cases taken
    exact .callFailed
  | reload protocolVersion =>
    cases taken
    exact .reload
  | start =>
    simp only [step] at taken
    split at taken
    · rename_i idle
      cases taken
      exact .start idle
    · cases taken
  | send =>
    simp only [step] at taken
    split at taken
    · rename_i due
      cases taken
      exact .send due
    · cases taken
  | answer response =>
    simp only [step] at taken
    split at taken
    · rename_i waiting
      cases taken
      exact .answer waiting
    · cases taken
  | resume =>
    simp only [step] at taken
    split at taken
    · rename_i pausing
      obtain ⟨awake, same⟩ := Option.ite_none_right_eq_some.mp taken
      cases same
      exact .resume pausing awake
    · cases taken
  | expire =>
    simp only [step] at taken
    split at taken
    · rename_i phase
      obtain ⟨-, same⟩ := Option.ite_none_right_eq_some.mp taken
      cases same
      exact .expire (by rw [phase]; rfl) (by rw [phase]; rfl)
    · rename_i phase
      obtain ⟨-, same⟩ := Option.ite_none_right_eq_some.mp taken
      cases same
      exact .expire (by rw [phase]; rfl) (by rw [phase]; rfl)
    · rename_i phase
      obtain ⟨-, same⟩ := Option.ite_none_right_eq_some.mp taken
      cases same
      exact .expire (by rw [phase]; rfl) (by rw [phase]; rfl)
    · cases taken
  | remember =>
    simp only [step] at taken
    split at taken
    · rename_i fetched
      cases taken
      exact .remember fetched
    · cases taken
  | prepare =>
    simp only [step] at taken
    split at taken
    · rename_i ready
      cases taken
      exact .prepare ready
    · cases taken
  | publish =>
    simp only [step] at taken
    split at taken
    · rename_i publishing
      cases taken
      exact .publish publishing
    · cases taken
  | cancel =>
    simp only [step] at taken
    split at taken
    · cases taken
    · cases taken
      exact .cancel

end SiriusProxy.Client.Global
