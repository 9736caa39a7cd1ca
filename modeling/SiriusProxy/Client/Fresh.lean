import SiriusProxy.Client.Global
import SiriusProxy.Lib.Run

namespace SiriusProxy.Client.Global
open Master.Update (Request)

/-- What the CDN is given: nothing, or the one credential that is configured for the default root. -/
def Settings.credentials (settings : Settings) : Option (String × String) :=
  match settings.snapshot.cdnAuthorization with
  | .none => none
  | .basic =>
    match settings.snapshot.usernameEnv.bind settings.secret,
        settings.config.cdnSecrets.lookup settings.config.defaultCdnRoot with
    | some username, some password => some (username, password)
    | _, _ => none

/-- The request for the hash of a version, at the configured root. -/
def Settings.request (settings : Settings) (version : String) : Request :=
  ⟨(globalCatalogUrls settings.config.defaultCdnRoot settings.config.platform version).2.1, settings.credentials⟩

def World.versions (w : World) : List String := w.announced.filterMap fun a => usable a.resource

/-- One VERSION response, the newest, has announced both versions. -/
def Latest (w : World) (version : String) (observedAt : Instant) (master : Option String) : Prop :=
  ∃ a, w.announced.head? = some a ∧ usable a.resource = some version ∧ a.at_ = observedAt ∧ master = some a.master

/-- The CDN has answered the request for the hash of the version with it. -/
def Answered (settings : Settings) (w : World) (version hash : String) : Prop :=
  ∃ response, (settings.request version, response) ∈ w.answers ∧ once (some response) = .ok hash

/-- The snapshot speaks of the state as it is: of the newest VERSION response, of the configured root, which is
the one in force, and of a hash that this root has answered for this version. -/
structure Built (settings : Settings) (w : World) (snapshot : ResourceSnapshot) : Prop where
  latest : Latest w snapshot.resourceVersion snapshot.observedAt snapshot.masterVersion
  hash : Answered settings w snapshot.resourceVersion snapshot.platformHash
  root : snapshot.effectiveCdnRoot = settings.config.defaultCdnRoot
  inForce : w.state.client.cdnRoot = snapshot.effectiveCdnRoot
  served : w.state.client.observation.grpcStatus = some 0
  urls : globalCatalogUrls snapshot.effectiveCdnRoot settings.config.platform snapshot.resourceVersion =
    (snapshot.catalogUrl, (settings.request snapshot.resourceVersion).url, snapshot.bundleBaseUrl)
  authorization : snapshot.cdnAuthorization = settings.snapshot.cdnAuthorization
  reference : settings.credentialRef snapshot.effectiveCdnRoot = some snapshot.credentialRef
  credential : settings.snapshot.cdnAuthorization = .basic → w.state.client.credentialValid = true

/-- A plan is for an announced version and for the configured root with its own credentials. -/
structure Planned (settings : Settings) (w : World) (plan : Plan) : Prop where
  announced : plan.version ∈ w.versions
  root : plan.root = settings.config.defaultCdnRoot
  basic : plan.basic = settings.credentials
  given : settings.snapshot.cdnAuthorization = .basic → plan.basic.isSome = true

structure Sound (settings : Settings) (w : World) : Prop where
  current : ∀ version observedAt, w.state.globalVersion = some (version, observedAt) →
    Latest w version observedAt w.state.client.observation.masterVersion
  planned : ∀ plan, w.phase.plan = some plan → Planned settings w plan
  found : ∀ plan hash, w.phase.found = some (plan, hash) → Answered settings w plan.version hash
  root : ∀ last, w.state.catalogHash = some last → last.root = settings.config.defaultCdnRoot
  memo : ∀ last hash, w.state.catalogHash = some last → last.hash = some hash → Answered settings w last.version hash
  sent : ∀ request ∈ w.sent, ∃ version ∈ w.versions, request = settings.request version
  fresh : w.state.client.snapshotStale = false → ∃ snapshot, w.state.snapshot = some snapshot ∧ Built settings w snapshot

section Client
variable {rfc3339 : String → Bool} {config : Config} {s : Client.State} {md : HeaderMap} {status : Option Nat}
  {sentVersion : Option String} {now : Instant}

theorem signal_observation : (s.signal status sentVersion).observation = s.observation := by
  unfold Client.State.signal
  split_ifs <;> rfl

/-- Of all that a response changes in the state, only the record of its header fields changes the observation. -/
theorem observe_observation : (s.observe rfc3339 config md status sentVersion now).observation =
    (s.record rfc3339 md status sentVersion now).observation := by
  have failed (t : Client.State) : (t.failed status).observation = t.observation := by
    unfold Client.State.failed
    split_ifs <;> rfl
  have follow (t : Client.State) (root : Option String) : (t.follow root).observation = t.observation := by
    unfold Client.State.follow
    split
    · rfl
    · split_ifs <;> rfl
  have verify (t : Client.State) (credential : Option String) :
      (t.verify config credential).observation = t.observation := by
    unfold Client.State.verify
    split
    · rfl
    · split_ifs <;> rfl
  rw [Client.State.observe, verify, follow, failed]

theorem observe_grpcStatus : (s.observe rfc3339 config md status sentVersion now).observation.grpcStatus = status := by
  rw [observe_observation, Client.State.record]
  dsimp only
  rw [signal_observation]

theorem observe_masterVersion : (s.observe rfc3339 config md status sentVersion now).observation.masterVersion =
    s.observation.masterVersion := by
  rw [observe_observation, Client.State.record]
  dsimp only
  rw [signal_observation]

end Client

variable {settings : Settings} {w x : World} {plan : Plan} {snapshot : ResourceSnapshot}

/-- At the configured root a build has the configured credentials, and where the configuration asks for them they
are there. -/
theorem basic_ok {s : Client.State} {basic : Option (String × String)} (given : settings.basic s = .ok basic)
    (root : s.cdnRoot = settings.config.defaultCdnRoot) : basic = settings.credentials ∧
      (settings.snapshot.cdnAuthorization = .basic → basic.isSome = true) := by
  unfold Settings.basic at given
  cases mode : settings.snapshot.cdnAuthorization with
  | none =>
    have free : settings.credentials = none := by
      unfold Settings.credentials
      rw [mode]
    rw [mode] at given
    dsimp only at given
    split at given
    · cases given
    · cases given
      exact ⟨free.symm, fun off => by cases off⟩
  | basic =>
    rw [mode, root] at given
    dsimp only at given
    split at given
    · rename_i username password named secret
      have own : settings.credentials = some (username, password) := by
        unfold Settings.credentials
        simp only [mode, named, secret]
      split at given
      · cases given
        exact ⟨own.symm, fun _ => rfl⟩
      · cases given
    · cases given

/-- What a build has found in the state when it goes on. -/
structure Looked (settings : Settings) (s : State) (now utc : Instant) (plan : Plan) : Prop where
  current : ∃ observedAt, s.globalVersion = some (plan.version, observedAt) ∧ recent utc observedAt = true
  root : s.client.cdnRoot = settings.config.defaultCdnRoot
  same : plan.root = s.client.cdnRoot
  basic : settings.basic s.client = .ok plan.basic
  cached : plan.cached = (s.catalogHash.filter fun last => last.root == s.client.cdnRoot && last.version == plan.version &&
    decide (now - last.at_ < settings.ttl)).map (·.hash)

/-- A look that lets a build go on has found an announced version that is recent and the configured root. -/
theorem looked_of_look {s : State} {now utc : Instant} (look : settings.look s now utc = .ok (some plan)) :
    Looked settings s now utc plan := by
  unfold Settings.look at look
  split at look
  · cases look
  split at look
  · cases look
  rename_i version observedAt current
  split at look
  · cases look
  rename_i usable
  simp only [Bool.or_eq_true, bne_iff_ne, ne_eq, Bool.not_eq_true', not_or, not_not, Bool.not_eq_false] at usable
  split at look
  · cases look
  split at look
  · cases look
  rename_i basic given
  cases look
  exact ⟨⟨observedAt, current, usable.2⟩, usable.1, rfl, given, rfl⟩

/-- The state into which a build publishes, and what becomes of it. -/
structure Published (settings : Settings) (plan : Plan) (hash protocolVersion : String) (s t : State) : Prop where
  current : ∃ snapshot, s.globalVersion = some (plan.version, snapshot.observedAt) ∧ t.snapshot = some snapshot ∧
    snapshot.resourceVersion = plan.version ∧ snapshot.platformHash = hash ∧ snapshot.effectiveCdnRoot = plan.root ∧
    snapshot.masterVersion = s.client.observation.masterVersion ∧ snapshot.protocolVersion = protocolVersion ∧
    snapshot.catalogUrl = (globalCatalogUrls plan.root settings.config.platform plan.version).1 ∧
    snapshot.bundleBaseUrl = (globalCatalogUrls plan.root settings.config.platform plan.version).2.2 ∧
    snapshot.cdnAuthorization = settings.snapshot.cdnAuthorization ∧
    settings.credentialRef plan.root = some snapshot.credentialRef
  root : s.client.cdnRoot = plan.root
  served : s.client.observation.grpcStatus = some 0
  maintained : s.client.observation.maintenance = false
  credential : plan.basic.isSome = true → s.client.credentialValid = true
  client : t.client = { s.client with snapshotStale := false }
  kept : t.globalVersion = s.globalVersion ∧ t.catalogHash = s.catalogHash

/-- A publication succeeds only into a state that still announces the plan's version and root after a successful
answer; it builds the snapshot from the plan, the hash and that state. -/
theorem published_of_publish {s t : State} {hash protocolVersion : String}
    (published : settings.publish plan hash protocolVersion s = .ok t) :
    Published settings plan hash protocolVersion s t := by
  unfold Settings.publish at published
  split at published
  · cases published
  rename_i current observedAt announced
  split at published
  · cases published
  rename_i same
  simp only [bne_iff_ne, ne_eq, not_not] at same
  split at published
  · cases published
  rename_i allowed
  simp only [Bool.or_eq_true, bne_iff_ne, ne_eq, not_or, not_not, Bool.not_eq_true, Bool.and_eq_false_imp,
    Bool.not_eq_false'] at allowed
  obtain ⟨⟨⟨root, maintained⟩, served⟩, credential⟩ := allowed
  split at published
  · cases published
  rename_i reference given
  cases published
  subst same
  exact ⟨⟨_, announced, rfl, rfl, rfl, rfl, rfl, rfl, rfl, rfl, rfl, given⟩, root, served, maintained, credential, rfl,
    rfl, rfl⟩

section Frames

/-- Where nothing of it has been taken away, a snapshot speaks of the later state too. -/
theorem Built.later (built : Built settings w snapshot) (announced : x.announced = w.announced)
    (answers : ∀ answer ∈ w.answers, answer ∈ x.answers) (root : x.state.client.cdnRoot = w.state.client.cdnRoot)
    (served : x.state.client.observation.grpcStatus = some 0)
    (credential : w.state.client.credentialValid = true → x.state.client.credentialValid = true) :
    Built settings x snapshot := by
  obtain ⟨response, member, hash⟩ := built.hash
  exact { built with
    latest := by
      rw [Latest, announced]
      exact built.latest
    hash := ⟨response, answers _ member, hash⟩
    inForce := root.trans built.inForce
    served := served
    credential := fun basic => credential (built.credential basic) }

theorem Planned.later (planned : Planned settings w plan) (announced : ∀ version ∈ w.versions, version ∈ x.versions) :
    Planned settings x plan := { planned with announced := announced _ planned.announced }

theorem versions_of_latest {version : String} {observedAt : Instant} {master : Option String}
    (latest : Latest w version observedAt master) : w.versions.head? = some version := by
  obtain ⟨a, head, same, -, -⟩ := latest
  obtain ⟨rest, list⟩ := List.head?_eq_some_iff.mp head
  rw [World.versions, list, List.filterMap_cons, same]
  rfl

theorem fetch_plan {deadline : Instant} {attempt : Nat} : (fetch settings plan deadline attempt).plan = some plan ∧
    (fetch settings plan deadline attempt).found = none := by
  unfold fetch
  split_ifs <;> exact ⟨rfl, rfl⟩

/-- Whatever an attempt ends with, the build keeps its plan, and a hash that it has found is the one that this
attempt was answered. -/
theorem attempted_plan {deadline now : Instant} {attempt : Nat} (result : Except Master.Update.UpdateError String) :
    (attempted settings plan deadline attempt now result).plan = some plan ∧
      ∀ other hash, (attempted settings plan deadline attempt now result).found = some (other, hash) →
        other = plan ∧ result = .ok hash := by
  cases result with
  | ok hash =>
    refine ⟨rfl, fun other known same => ?_⟩
    cases same
    exact ⟨rfl, rfl⟩
  | error e =>
    simp only [attempted]
    split_ifs
    · exact ⟨rfl, fun _ _ off => by cases off⟩
    · exact ⟨rfl, fun _ _ off => by cases off⟩

namespace Sound

/-- What the game says to other calls. -/
theorem told (sound : Sound settings w) {client : Client.State}
    (master : client.observation.masterVersion = w.state.client.observation.masterVersion)
    (fresh : client.snapshotStale = false → w.state.client.snapshotStale = false ∧
      client.cdnRoot = w.state.client.cdnRoot ∧ client.observation.grpcStatus = some 0 ∧
      (w.state.client.credentialValid = true → client.credentialValid = true)) :
    Sound settings { w with state := { w.state with client } } := by
  refine ⟨fun version observedAt current => ?_, fun plan same => ?_, sound.found, sound.root, sound.memo, sound.sent,
    fun still => ?_⟩
  · dsimp only
    rw [master]
    exact sound.current version observedAt current
  · exact (sound.planned plan same).later fun _ member => member
  · obtain ⟨before, root, served, credential⟩ := fresh still
    obtain ⟨snapshot, there, built⟩ := sound.fresh before
    exact ⟨snapshot, there, built.later rfl (fun _ member => member) root served credential⟩

/-- A step of the build that leaves the state alone. -/
theorem moved (sound : Sound settings w) (state : x.state = w.state) (announced : x.announced = w.announced)
    (answers : ∀ answer ∈ w.answers, answer ∈ x.answers)
    (planned : ∀ plan, x.phase.plan = some plan → Planned settings w plan)
    (found : ∀ plan hash, x.phase.found = some (plan, hash) → Answered settings x plan.version hash)
    (sent : ∀ request ∈ x.sent, request ∈ w.sent ∨ ∃ plan, Planned settings w plan ∧ request = plan.request settings) :
    Sound settings x := by
  have versions : x.versions = w.versions := by rw [World.versions, World.versions, announced]
  have latest {version : String} {observedAt : Instant} {master : Option String}
      (held : Latest w version observedAt master) : Latest x version observedAt master := by
    rw [Latest, announced]
    exact held
  have answered {version hash : String} (held : Answered settings w version hash) : Answered settings x version hash := by
    obtain ⟨response, member, same⟩ := held
    exact ⟨response, answers _ member, same⟩
  refine ⟨fun version observedAt current => ?_, fun plan same => ?_, found, fun last same => ?_,
    fun last hash same known => ?_, fun request member => ?_, fun still => ?_⟩
  · rw [state] at current ⊢
    exact latest (sound.current version observedAt current)
  · exact (planned plan same).later fun version member => versions ▸ member
  · rw [state] at same
    exact sound.root last same
  · rw [state] at same
    exact answered (sound.memo last hash same known)
  · rw [versions]
    rcases sent request member with old | ⟨plan, held, same⟩
    · exact sound.sent request old
    · refine ⟨plan.version, held.announced, ?_⟩
      rw [same, Plan.request, held.root, held.basic]
      rfl
  · rw [state] at still ⊢
    obtain ⟨snapshot, there, built⟩ := sound.fresh still
    refine ⟨snapshot, there, built.later announced answers ?_ ?_ ?_⟩
    · rw [state]
    · rw [state]
      exact built.served
    · rw [state]
      exact id

/-- A VERSION response makes the snapshot stale, whatever it announces. -/
theorem version (sound : Sound settings w) (version : String) (resource asset : Option String) :
    Sound settings { w with
      state := w.state.version settings.config version resource asset w.now w.utc
      announced := ⟨version, resource, w.utc⟩ :: w.announced } := by
  have grown {known : String} (member : known ∈ w.versions) :
      known ∈ World.versions { w with
        state := w.state.version settings.config version resource asset w.now w.utc
        announced := ⟨version, resource, w.utc⟩ :: w.announced } := by
    obtain ⟨a, there, same⟩ := List.mem_filterMap.mp member
    exact List.mem_filterMap.mpr ⟨a, List.mem_cons_of_mem _ there, same⟩
  refine ⟨fun current observedAt announced => ?_, fun plan same => ?_, sound.found, sound.root, sound.memo,
    fun request member => ?_, fun still => ?_⟩
  · obtain ⟨v, same, pair⟩ := Option.map_eq_some_iff.mp announced
    cases pair
    exact ⟨_, rfl, same, rfl, rfl⟩
  · exact (sound.planned plan same).later fun _ => grown
  · obtain ⟨known, member, same⟩ := sound.sent request member
    exact ⟨known, grown member, same⟩
  · cases still

theorem reload (sound : Sound settings w) (protocolVersion : String) :
    Sound settings { w with state := w.state.reload, protocolVersion } := by
  refine ⟨fun current observedAt announced => ?_, fun plan same => ?_, sound.found, sound.root, sound.memo, sound.sent,
    fun still => ?_⟩
  · cases announced
  · exact (sound.planned plan same).later fun _ member => member
  · cases still

/-- The plan of a build is for a version that was announced, since the state that was looked at holds the
latest one. -/
theorem planned_of_look (sound : Sound settings w) {now utc : Instant} (looked : Looked settings w.state now utc plan) :
    Planned settings w plan := by
  obtain ⟨observedAt, current, -⟩ := looked.current
  obtain ⟨basic, given⟩ := basic_ok looked.basic looked.root
  exact {
    announced := List.mem_of_mem_head? (versions_of_latest (sound.current _ _ current))
    root := looked.same.trans looked.root
    basic := basic
    given := given }

/-- What is remembered of the version is good for the plan. -/
theorem cached_of_look (sound : Sound settings w) {now utc : Instant} (looked : Looked settings w.state now utc plan)
    {hash : String} (cached : plan.cached = some (some hash)) : Answered settings w plan.version hash := by
  rw [looked.cached] at cached
  obtain ⟨last, filtered, known⟩ := Option.map_eq_some_iff.mp cached
  obtain ⟨memo, fits⟩ := Option.filter_eq_some_iff.mp filtered
  simp only [Bool.and_eq_true, beq_iff_eq, decide_eq_true_eq] at fits
  rw [← fits.1.2]
  exact sound.memo last hash memo known

/-- A build that starts has a plan, or ends at once and changes nothing. A hash that it takes from memory was
answered for that version before. -/
theorem start (sound : Sound settings w) : Sound settings (w.start settings) := by
  unfold World.start
  split
  · exact sound
  · exact sound
  rename_i plan look
  have looked := looked_of_look look
  have held := sound.planned_of_look looked
  refine sound.moved rfl rfl (fun _ => id) (fun other same => ?_) (fun other hash same => ?_) fun _ => .inl
  · dsimp only [Global.planned] at same
    split at same
    · cases same
      exact held
    · cases same
    · rw [fetch_plan.1] at same
      cases same
      exact held
  · dsimp only [Global.planned] at same
    split at same
    · rename_i known cached
      cases same
      exact sound.cached_of_look looked cached
    · cases same
    · rw [fetch_plan.2] at same
      cases same

/-- An answer adds to what was answered; if it gives a hash, the build goes on with the hash of this
very answer. -/
theorem answer (sound : Sound settings w) {deadline : Instant} {attempt : Nat}
    (waiting : w.phase = .waiting plan deadline attempt)
    (response : Option (Master.Update.Response (List UInt8))) :
    Sound settings (w.answer settings plan deadline attempt response) := by
  have held := sound.planned plan (by rw [waiting]; rfl)
  refine sound.moved rfl rfl (fun _ member => List.mem_append_right _ member) (fun other same => ?_)
    (fun other hash same => ?_) fun _ => .inl
  · dsimp only [World.answer] at same
    rw [(attempted_plan _).1] at same
    cases same
    exact held
  · obtain ⟨rfl, answered⟩ := (attempted_plan _).2 other hash same
    cases response with
    | none => cases answered
    | some r =>
      refine ⟨r, List.mem_append_left _ (List.mem_singleton.mpr ?_), answered⟩
      rw [Plan.request, held.root, held.basic]
      rfl

/-- The memory takes the plan's root and version with the hash that was found for them, so a later build that takes
it from there takes an answered one. -/
theorem remember (sound : Sound settings w) {hash : Option String} (fetched : w.phase = .fetched plan hash) :
    Sound settings (w.remember plan hash) := by
  have held := sound.planned plan (by rw [fetched]; rfl)
  have answered (known : String) (same : hash = some known) : Answered settings w plan.version known := by
    subst same
    exact sound.found plan known (by rw [fetched]; rfl)
  refine ⟨sound.current, fun other same => ?_, fun other known same => ?_, fun last same => ?_,
    fun last known same own => ?_, sound.sent, fun still => ?_⟩
  · dsimp only [World.remember] at same
    split at same
    · cases same
      exact held.later fun _ member => member
    · cases same
  · dsimp only [World.remember] at same
    split at same
    · cases same
      exact answered _ rfl
    · cases same
  · cases same
    exact held.root
  · cases same
    exact answered known own
  · obtain ⟨snapshot, there, built⟩ := sound.fresh still
    exact ⟨snapshot, there, built.later rfl (fun _ member => member) rfl built.served id⟩

/-- The snapshot is built of the plan and of the hash that was found for it. The state has the plan's version as
the latest one announced, which is what the snapshot's names are checked against; a state that has moved on
refuses it. -/
theorem publish (sound : Sound settings w) {hash protocolVersion : String}
    (ready : w.phase = .publishing plan hash protocolVersion) :
    Sound settings (w.publish settings plan hash protocolVersion) := by
  have held := sound.planned plan (by rw [ready]; rfl)
  have answered := sound.found plan hash (by rw [ready]; rfl)
  unfold World.publish
  split
  · refine sound.moved rfl rfl (fun _ => id) (fun _ off => ?_) (fun _ _ off => ?_) fun _ => .inl
    · cases off
    · cases off
  · rename_i state done
    have published := published_of_publish done
    obtain ⟨snapshot, announced, there, version, own, root, master, -, catalog, bundles, mode, reference⟩ := published.current
    have latest := sound.current _ _ announced
    have grpc : state.client.observation = w.state.client.observation := by rw [published.client]
    refine ⟨fun other observedAt same => ?_, fun _ off => ?_, fun _ _ off => ?_, fun last same => ?_,
      fun last known same => ?_, sound.sent, fun _ => ⟨snapshot, there, ?_⟩⟩
    · dsimp only at same ⊢
      rw [grpc]
      exact sound.current other observedAt (published.kept.1 ▸ same)
    · cases off
    · cases off
    · exact sound.root last (published.kept.2 ▸ same)
    · exact sound.memo last known (published.kept.2 ▸ same)
    · exact {
        latest := by
          rw [version, master]
          exact latest
        hash := by
          rw [version, own]
          exact answered
        root := root.trans held.root
        inForce := by
          dsimp only
          rw [published.client, root]
          exact published.root
        served := by
          dsimp only
          rw [grpc]
          exact published.served
        urls := by
          rw [root, version, catalog, bundles, held.root]
          rfl
        authorization := mode
        reference := by
          rw [root]
          exact reference
        credential := fun basic => by
          dsimp only
          rw [published.client]
          exact published.credential (held.given basic) }

/-- A step of the build that sends nothing and finds nothing. -/
theorem quiet (sound : Sound settings w) {phase : Phase} {begun lost : Nat}
    (plan : ∀ plan, phase.plan = some plan → w.phase.plan = some plan)
    (found : ∀ plan hash, phase.found = some (plan, hash) → w.phase.found = some (plan, hash)) :
    Sound settings { w with phase, begun, lost } :=
  sound.moved rfl rfl (fun _ => id) (fun other same => sound.planned other (plan other same))
    (fun other hash same => sound.found other hash (found other hash same)) fun _ => .inl

/-- What one step keeps, by the kinds of steps. Responses and reloads change the client alone and at most mark the
snapshot stale; the others are the lemmas above. -/
theorem step {rfc3339 : String → Bool} {label : Label} (sound : Sound settings w)
    (taken : step settings rfc3339 w label = some x) : Sound settings x := by
  cases moves_of_step taken with
  | tick later => exact sound.moved rfl rfl (fun _ => id) sound.planned sound.found fun _ => .inl
  | observe =>
    refine sound.told observe_masterVersion fun fresh => ?_
    obtain ⟨succeeded, before, root, -, credential⟩ := Client.State.observe_fresh fresh
    exact ⟨before, root, observe_grpcStatus.trans succeeded, credential⟩
  | version => exact sound.version _ _ _
  | callFailed => exact sound.told rfl fun fresh => by cases fresh
  | reload => exact sound.reload _
  | start => exact sound.start
  | @send plan deadline attempt due =>
    have held := sound.planned plan (by rw [due]; rfl)
    refine sound.moved rfl rfl (fun _ => id) (fun other same => ?_) (fun _ _ off => ?_) fun request member => ?_
    · cases same
      exact held
    · cases off
    · rcases List.mem_cons.mp member with same | old
      · exact .inr ⟨plan, held, same⟩
      · exact .inl old
  | answer waiting => exact sound.answer waiting _
  | resume pausing awake =>
    refine sound.quiet (fun other same => ?_) fun _ _ off => ?_
    · rw [fetch_plan.1] at same
      rw [pausing]
      exact same
    · rw [fetch_plan.2] at off
      cases off
  | expire going fetching => exact sound.quiet (fun other own => by cases own; exact going) fun _ _ off => by cases off
  | remember fetched => exact sound.remember fetched
  | prepare ready =>
    refine sound.quiet (fun other same => ?_) fun other hash same => ?_
    · rw [ready]
      exact same
    · rw [ready]
      exact same
  | publish publishing => exact sound.publish publishing
  | cancel => exact sound.quiet (fun _ off => by cases off) fun _ _ off => by cases off

/-- Nothing has been announced, asked or built at the start, and the snapshot is stale. -/
theorem new (settings : Settings) (protocolVersion : String) :
    Sound settings (.new settings.config protocolVersion) where
  current _ _ off := by cases off
  planned _ off := by cases off
  found _ _ off := by cases off
  root _ off := by cases off
  memo _ _ off := by cases off
  sent _ off := by cases off
  fresh off := by cases off

theorem of_reach {rfc3339 : String → Bool} {protocolVersion : String}
    (reach : Run.Reach (Global.step settings rfc3339) (fun _ _ => True) (.new settings.config protocolVersion) w) :
    Sound settings w :=
  reach.invariant (.new settings protocolVersion) fun _ _ _ sound _ taken => sound.step taken

end Sound

end Frames

section Hash

/-- A hexadecimal digit in lower case, decided for the code points up to the last of them. -/
theorem toLower_hex {c : Char} (hex : Master.isAsciiHexDigit c = true) : isLowerHex c.toLower = true := by
  have small : ∀ n < 103, Master.isAsciiHexDigit (Char.ofNat n) = true → isLowerHex (Char.ofNat n).toLower = true := by
    decide
  have bound : c.toNat < 103 := by
    simp only [Master.isAsciiHexDigit, isAsciiDigit, Bool.or_eq_true, Bool.and_eq_true, decide_eq_true_eq] at hex
    rcases hex with (⟨-, below⟩ | ⟨-, below⟩) | ⟨-, below⟩
    · exact Nat.lt_of_le_of_lt below (by decide)
    · exact Nat.lt_of_le_of_lt below (by decide)
    · exact Nat.lt_of_le_of_lt below (by decide)
  have same := small c.toNat bound
  rw [Char.ofNat_toNat] at same
  exact same hex

/-- The form of a hash, whatever the CDN sends. -/
theorem once_ok {response : Option (Master.Update.Response (List UInt8))} {hash : String}
    (fetched : once response = .ok hash) :
    hash.toList.length = 32 ∧ hash.toList.all isLowerHex = true := by
  unfold once at fetched
  split at fetched
  · cases fetched
  split at fetched
  · cases fetched
  split at fetched
  · cases fetched
  rename_i read
  cases fetched
  unfold catalogHash at read
  split at read
  · cases read
  dsimp only at read
  split at read
  · rename_i valid
    simp only [Bool.and_eq_true, decide_eq_true_eq, List.all_eq_true] at valid
    cases read
    rw [String.toList_ofList, List.length_map]
    refine ⟨valid.1, List.all_eq_true.mpr fun c member => ?_⟩
    obtain ⟨digit, there, same⟩ := List.mem_map.mp member
    rw [← same]
    exact toLower_hex (valid.2 digit there)
  · cases read

end Hash

/-- What `refresh_resource_snapshot` answers, and what `snapshot` does not call stale, is of the newest VERSION
response, which was observed after the refresh began, and of the configured root. -/
theorem snapshot_built {rfc3339 : String → Bool} {protocolVersion : String}
    (reach : Run.Reach (step settings rfc3339) (fun _ _ => True) (.new settings.config protocolVersion) w) :
    (∀ started snapshot, w.state.refreshed started w.utc = .ok snapshot → Built settings w snapshot ∧
      started ≤ snapshot.observedAt ∧ recent w.utc snapshot.observedAt = true) ∧
    (∀ snapshot, w.state.served w.utc = .ok (snapshot, false) → Built settings w snapshot ∧
      seconds w.utc snapshot.observedAt ≤ 300) ∧
    ∀ snapshot, Built settings w snapshot →
      snapshot.platformHash.toList.length = 32 ∧ snapshot.platformHash.toList.all isLowerHex = true := by
  have sound := Sound.of_reach reach
  refine ⟨fun started snapshot refreshed => ?_, fun snapshot served => ?_, fun snapshot built => ?_⟩
  · unfold State.refreshed at refreshed
    split at refreshed
    · cases refreshed
    rename_i up
    simp only [Bool.or_eq_true, not_or, Bool.not_eq_true] at up
    split at refreshed
    · cases refreshed
    rename_i own there
    split at refreshed
    · cases refreshed
    rename_i timely
    simp only [Bool.or_eq_true, decide_eq_true_eq, Bool.not_eq_true', not_or, not_lt, Bool.not_eq_false] at timely
    cases refreshed
    obtain ⟨snapshot, same, built⟩ := sound.fresh up.1.1
    cases there.symm.trans same
    exact ⟨built, timely⟩
  · unfold State.served at served
    split at served
    · cases served
    rename_i own there
    have pair := Except.ok.inj served
    have valid := congrArg Prod.snd pair
    simp only [Bool.or_eq_false_iff, decide_eq_false_iff_not, not_lt] at valid
    obtain ⟨found, same, built⟩ := sound.fresh valid.1
    cases there.symm.trans same
    cases congrArg Prod.fst pair
    exact ⟨built, valid.2⟩
  · obtain ⟨response, -, fetched⟩ := built.hash
    exact once_ok fetched

section Sample

def sampleConfig : Config :=
  { Client.sampleConfig with
    region := .en, platform := .android, clientVersion := "1.0.1", defaultCdnRoot := "https://cdn.example",
    cdnCredentialEnv := [], cdnSecrets := [] }

def sampleSettings : Settings where
  config := sampleConfig
  snapshot := ⟨.none, none, 60, { attempts := 2 }⟩
  secret _ := none
  valid := by rfl

def sampleHash : Master.Update.Response (List UInt8) := ⟨200, some 32, [some (List.replicate 32 97)]⟩

def sampleRun : List Label :=
  [.observe [] (some 0) none, .version "m1" (some "r1") none, .start, .send, .answer none, .tick 250000000 1000000000,
    .resume, .send, .answer (some sampleHash), .remember, .prepare, .publish]

end Sample

/-- The second attempt succeeds. -/
theorem snapshot_built_sample : ∃ w snapshot, w.state.refreshed 0 w.utc = .ok snapshot ∧
    Built sampleSettings w snapshot := by
  have run : ((Run.exec (step sampleSettings fun _ => false) (.new sampleConfig "p1") sampleRun).bind fun w =>
      (w.state.refreshed 0 w.utc).toOption).isSome = true := by decide +kernel
  obtain ⟨snapshot, found⟩ := Option.isSome_iff_exists.mp run
  obtain ⟨w, ran, read⟩ := Option.bind_eq_some_iff.mp found
  have refreshed : w.state.refreshed 0 w.utc = .ok snapshot := by
    cases result : w.state.refreshed 0 w.utc with
    | error e =>
      rw [result] at read
      cases read
    | ok own =>
      rw [result] at read
      cases read
      rfl
  exact ⟨w, snapshot, refreshed, ((snapshot_built (Run.reach_of_exec ran)).1 0 snapshot refreshed).1⟩

end SiriusProxy.Client.Global
