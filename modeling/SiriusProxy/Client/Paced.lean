import SiriusProxy.Client.Fresh
import SiriusProxy.Lib.Limiter

namespace SiriusProxy.Client.Global
open Relation (ReflTransGen)

/-- How often the announced version has changed, the first announcement included. -/
def turns : List String → Nat
  | [] => 0
  | version :: earlier => turns earlier + if earlier.head? = some version then 0 else 1

/-- The builds as a limiter of fetches. -/
def World.limiter (w : World) : Limiter.State String where
  now := w.now
  key := w.versions.head?
  memo := w.state.catalogHash.map fun last => (last.version, last.at_)
  busy := w.phase.fetching
  begun := w.begun
  turns := turns w.versions
  losses := w.lost

variable {settings : Settings} {rfc3339 : String → Bool} {origin w x : World} {plan : Plan} {label : Label}

/-- The configuration is validated to keep a hash at least ten seconds. -/
theorem Settings.ttl_pos (settings : Settings) : 0 < settings.ttl := by
  have valid := settings.valid
  unfold validateResourceSnapshot at valid
  split at valid
  · cases valid
  split at valid
  · cases valid
  split at valid
  · cases valid
  rename_i bounds
  simp only [Bool.not_eq_true', Bool.and_eq_false_iff, decide_eq_false_iff_not, not_or, not_not] at bounds
  rw [Settings.ttl, fromSecs]
  omega

section Phases
variable {deadline now : Instant} {attempt : Nat}

/-- The requests a build may still send. -/
def Phase.left (settings : Settings) : Phase → Nat
  | .attempt _ _ attempt => settings.snapshot.network.attempts - (attempt + 1) + 1
  | .waiting _ _ attempt | .pausing _ _ attempt _ => settings.snapshot.network.attempts - (attempt + 1)
  | _ => 0

theorem fetch_fetching : (fetch settings plan deadline attempt).fetching = some plan.version := by
  unfold fetch
  split_ifs <;> rfl

theorem fetch_left :
    (fetch settings plan deadline attempt).left settings ≤ settings.snapshot.network.attempts - attempt := by
  unfold fetch
  split_ifs
  · rw [Phase.left]
    omega
  · exact Nat.zero_le _

theorem attempted_fetching (result : Except Master.Update.UpdateError String) :
    (attempted settings plan deadline attempt now result).fetching = some plan.version := by
  cases result with
  | ok hash => rfl
  | error e =>
    simp only [attempted]
    split_ifs <;> rfl

/-- An attempt is used up whatever it ends with. -/
theorem attempted_left (result : Except Master.Update.UpdateError String) :
    (attempted settings plan deadline attempt now result).left settings ≤
      settings.snapshot.network.attempts - (attempt + 1) := by
  cases result with
  | ok hash => exact Nat.zero_le _
  | error e =>
    simp only [attempted]
    split_ifs
    · exact Nat.le_refl _
    · exact Nat.zero_le _

end Phases

section Steps

theorem limiter_same (now : x.now = w.now) (announced : x.announced = w.announced)
    (memo : x.state.catalogHash = w.state.catalogHash) (phase : x.phase.fetching = w.phase.fetching)
    (begun : x.begun = w.begun) (lost : x.lost = w.lost) : x.limiter = w.limiter := by
  rw [World.limiter, World.limiter, World.versions, World.versions, now, announced, memo, phase, begun, lost]

/-- An announcement is a turn of the limiter's key if it is for another version and nothing otherwise; the memory
is kept in both cases. -/
theorem limiter_version {state : State} {a : Announcement} (memo : state.catalogHash = w.state.catalogHash) :
    ReflTransGen (Limiter.Step settings.ttl) w.limiter
      { w with state, announced := a :: w.announced : World }.limiter := by
  have versions : { w with state, announced := a :: w.announced : World }.versions =
      (usable a.resource).toList ++ w.versions := by
    rw [World.versions, List.filterMap_cons]
    cases usable a.resource <;> rfl
  cases announced : usable a.resource with
  | none =>
    have same : { w with state, announced := a :: w.announced : World }.limiter = w.limiter := by
      rw [World.limiter, World.limiter, versions, announced, memo]
      rfl
    rw [same]
  | some version =>
    rw [announced] at versions
    by_cases head : w.versions.head? = some version
    · have same : { w with state, announced := a :: w.announced : World }.limiter = w.limiter := by
        rw [World.limiter, World.limiter, versions, memo, head]
        simp [turns, head]
      rw [same]
    · have turned : { w with state, announced := a :: w.announced : World }.limiter =
          { w.limiter with key := some version, turns := w.limiter.turns + 1 } := by
        rw [World.limiter, World.limiter, versions, memo]
        simp [turns, head]
      rw [turned]
      exact .single (.turn head)

/-- An attempt is due, so what is remembered of the version is older than its time to live. -/
theorem expired_of_look (sound : Sound settings w) {now utc : Instant} (looked : Looked settings w.state now utc plan)
    (due : plan.cached = none) {time : Instant} (memo : w.limiter.memo = some (plan.version, time)) :
    time + settings.ttl ≤ now := by
  obtain ⟨last, held, pair⟩ := Option.map_eq_some_iff.mp memo
  obtain ⟨same, rfl⟩ := Prod.mk.inj pair
  have cached := looked.cached
  rw [due, held] at cached
  have missed := Option.map_eq_none_iff.mp cached.symm
  rw [Option.filter_eq_none_iff] at missed
  have late := missed last rfl
  have root : last.root = w.state.client.cdnRoot := (sound.root last held).trans looked.root.symm
  rw [root, same, beq_self_eq_true, beq_self_eq_true, Bool.true_and, Bool.true_and, decide_eq_true_eq] at late
  have whole : settings.ttl ≤ now - last.at_ := not_lt.mp late
  have after : last.at_ ≤ now := Nat.le_of_lt (Nat.lt_of_sub_pos (settings.ttl_pos.trans_le whole))
  exact (Nat.le_sub_iff_add_le' after).mp whole

/-- A build that goes to the CDN has found no hash in memory that is young enough for its version, which is when
the limiter may be entered. -/
theorem limited_start (sound : Sound settings w) (idle : w.phase = .idle) :
    ReflTransGen (Limiter.Step settings.ttl) w.limiter (w.start settings).limiter := by
  unfold World.start
  split
  · exact .refl
  · exact .refl
  rename_i plan look
  have looked := looked_of_look look
  have free : w.limiter.busy = none := by rw [World.limiter, idle]; rfl
  cases cached : plan.cached with
  | none =>
    obtain ⟨observedAt, current, -⟩ := looked.current
    have began {phase : Phase} (fetching : phase.fetching = some plan.version) :
        { w with phase, begun := w.begun + 1 : World }.limiter =
          { w.limiter with busy := some plan.version, begun := w.limiter.begun + 1 } := by
      rw [World.limiter, fetching]
      rfl
    rw [planned, cached]
    dsimp only
    rw [Option.isNone_none, if_pos rfl, began fetch_fetching]
    exact .single (.enter free (versions_of_latest (sound.current _ _ current))
      fun time memo => expired_of_look sound looked cached memo)
  | some known =>
    have same : (planned settings plan w.now).fetching = w.phase.fetching := by
      rw [planned, cached, idle]
      cases known <;> rfl
    have still : { w with phase := planned settings plan w.now : World }.limiter = w.limiter :=
      limiter_same rfl rfl rfl same rfl rfl
    rw [Option.isNone_some, if_neg Bool.false_ne_true, Nat.add_zero, still]

/-- The end of the attempts settles the limiter: the memory is of now, whether a hash was found or not. -/
theorem limited_remember {hash : Option String} (fetched : w.phase = .fetched plan hash) :
    ReflTransGen (Limiter.Step settings.ttl) w.limiter (w.remember plan hash).limiter := by
  have busy : w.limiter.busy = some plan.version := by rw [World.limiter, fetched]; rfl
  have settled : (w.remember plan hash).limiter =
      { w.limiter with busy := none, memo := some (plan.version, w.limiter.now) } := by
    cases hash <;> rfl
  rw [settled]
  exact .single (.settle busy)

/-- The publication is none of the limiter's business. -/
theorem limited_publish {hash protocolVersion : String} (ready : w.phase = .publishing plan hash protocolVersion) :
    (w.publish settings plan hash protocolVersion).limiter = w.limiter := by
  have free : w.phase.fetching = none := by rw [ready]; rfl
  unfold World.publish
  split
  · exact limiter_same rfl rfl rfl free.symm rfl rfl
  · rename_i state done
    exact limiter_same rfl rfl (published_of_publish done).kept.2 free.symm rfl rfl

/-- A build that is dropped while it fetches is a loss, and no loss otherwise. -/
theorem limited_cancel : ReflTransGen (Limiter.Step settings.ttl) w.limiter w.cancel.limiter := by
  cases fetching : w.phase.fetching with
  | none =>
    rw [limiter_same (x := w.cancel) (w := w) rfl rfl rfl fetching.symm rfl (by rw [World.cancel, fetching]; rfl)]
  | some version =>
    have given : w.cancel.limiter = { w.limiter with busy := none, losses := w.limiter.losses + 1 } := by
      rw [World.limiter, World.cancel, fetching]
      rfl
    rw [given]
    exact .single (.lose fetching)

/-- Every step of the client is one of the limiter or none. -/
theorem limited (sound : Sound settings w) (taken : step settings rfc3339 w label = some x) :
    ReflTransGen (Limiter.Step settings.ttl) w.limiter x.limiter := by
  have still {y : World} (same : y.limiter = w.limiter) :
      ReflTransGen (Limiter.Step settings.ttl) w.limiter y.limiter := by
    rw [same]
  cases moves_of_step taken with
  | tick later => exact .single (.tick later)
  | observe => exact .refl
  | version => exact limiter_version rfl
  | callFailed => exact .refl
  | reload => exact .refl
  | start idle => exact limited_start sound idle
  | send due => exact still (limiter_same rfl rfl rfl (by rw [due]; rfl) rfl rfl)
  | answer waiting =>
    exact still (limiter_same rfl rfl rfl ((attempted_fetching _).trans (by rw [waiting]; rfl)) rfl rfl)
  | resume pausing awake => exact still (limiter_same rfl rfl rfl (fetch_fetching.trans (by rw [pausing]; rfl)) rfl rfl)
  | expire going fetching => exact still (limiter_same rfl rfl rfl fetching.symm rfl rfl)
  | remember fetched => exact limited_remember fetched
  | prepare ready => exact still (limiter_same rfl rfl rfl (by rw [ready]; rfl) rfl rfl)
  | publish publishing => exact still (limited_publish publishing)
  | cancel => exact limited_cancel

end Steps

section Requests

/-- The requests since `origin`, and those that the build may still send, are those of the builds since. -/
def Spent (settings : Settings) (origin w : World) : Prop :=
  w.sent.length + w.phase.left settings + settings.snapshot.network.attempts * origin.begun ≤
    origin.sent.length + settings.snapshot.network.attempts * w.begun

namespace Spent

theorem still (spent : Spent settings origin w) (sent : x.sent = w.sent) (begun : x.begun = w.begun)
    (left : x.phase.left settings ≤ w.phase.left settings) : Spent settings origin x := by
  unfold Spent at spent ⊢
  rw [sent, begun]
  omega

/-- A build that starts enters with all of its attempts left. -/
theorem start (spent : Spent settings origin w) : Spent settings origin (w.start settings) := by
  unfold World.start
  split
  · exact spent
  · exact spent
  rename_i plan look
  cases cached : plan.cached with
  | none =>
    have left : (fetch settings plan (w.now + fromSecs settings.snapshot.network.updateTimeoutSeconds) 0).left settings ≤
        settings.snapshot.network.attempts := fetch_left
    unfold Spent at spent ⊢
    rw [planned, cached]
    dsimp only
    rw [Option.isNone_none, if_pos rfl, Nat.mul_succ]
    omega
  | some known =>
    refine spent.still rfl rfl ?_
    rw [planned, cached]
    cases known <;> exact Nat.zero_le _

theorem send (spent : Spent settings origin w) {deadline : Instant} {attempt : Nat}
    (due : w.phase = .attempt plan deadline attempt) :
    Spent settings origin { w with phase := .waiting plan deadline attempt, sent := plan.request settings :: w.sent } := by
  unfold Spent at spent ⊢
  rw [due, Phase.left] at spent
  rw [Phase.left, List.length_cons]
  dsimp only
  omega

/-- Every step pays for the requests that it sends out of the attempts of the build that sends them. -/
theorem step (spent : Spent settings origin w) (taken : step settings rfc3339 w label = some x) :
    Spent settings origin x := by
  cases moves_of_step taken with
  | tick later => exact spent
  | observe => exact spent
  | version => exact spent
  | callFailed => exact spent
  | reload => exact spent
  | start idle => exact spent.start
  | send due => exact spent.send due
  | answer waiting => exact spent.still rfl rfl (by rw [waiting]; exact attempted_left _)
  | resume pausing awake => exact spent.still rfl rfl (by rw [pausing]; exact fetch_left)
  | expire going fetching => exact spent.still rfl rfl (Nat.zero_le _)
  | @remember plan hash fetched => exact spent.still rfl rfl (by cases hash <;> exact Nat.zero_le _)
  | prepare ready => exact spent.still rfl rfl (Nat.zero_le _)
  | publish publishing =>
    unfold World.publish
    split
    · exact spent.still rfl rfl (Nat.zero_le _)
    · exact spent.still rfl rfl (Nat.zero_le _)
  | cancel => exact spent.still rfl rfl (Nat.zero_le _)

end Spent

end Requests

/-- From a time on at which no build is under way, the requests to the CDN are those of one build, of one more for
every whole time to live and of one for every changed version and every build given up; each is for an announced
version, at the configured root. -/
theorem requests_bounded {protocolVersion : String}
    (reach : Run.Reach (step settings rfc3339) (fun _ _ => True) (.new settings.config protocolVersion) origin)
    (idle : origin.phase = .idle) (run : Run.Reach (step settings rfc3339) (fun _ _ => True) origin w) :
    w.sent.length ≤ origin.sent.length + settings.snapshot.network.attempts *
      (1 + (w.now - origin.now) / settings.ttl + (turns w.versions - turns origin.versions) + (w.lost - origin.lost)) ∧
    ∀ request ∈ w.sent, ∃ version ∈ w.versions, request = settings.request version := by
  have sound := Sound.of_reach (reach.trans run)
  refine ⟨?_, sound.sent⟩
  have kept : Sound settings w ∧ ReflTransGen (Limiter.Step settings.ttl) origin.limiter w.limiter ∧
      Spent settings origin w := by
    refine run.invariant (P := fun x => Sound settings x ∧
      ReflTransGen (Limiter.Step settings.ttl) origin.limiter x.limiter ∧ Spent settings origin x) ?_ ?_
    · refine ⟨Sound.of_reach reach, .refl, ?_⟩
      rw [Spent, idle]
      exact Nat.le_refl _
    · intro s label t held _ taken
      exact ⟨held.1.step taken, held.2.1.trans (limited held.1 taken), held.2.2.step taken⟩
  obtain ⟨-, limits, spent⟩ := kept
  have free : origin.limiter.busy = none := by rw [World.limiter, idle]; rfl
  have builds : w.begun - origin.begun ≤
      1 + (w.now - origin.now) / settings.ttl + (turns w.versions - turns origin.versions) + (w.lost - origin.lost) :=
    Limiter.begun_le settings.ttl_pos free limits
  have cost : w.sent.length ≤ origin.sent.length + settings.snapshot.network.attempts * (w.begun - origin.begun) := by
    unfold Spent at spent
    rw [Nat.mul_sub]
    omega
  exact cost.trans (Nat.add_le_add_left (Nat.mul_le_mul_left _ builds) _)

/-- Two attempts of one build. -/
theorem requests_bounded_sample : ∃ w : World, w.sent.length = 2 ∧ w.sent.length ≤
    0 + 2 * (1 + (w.now - 0) / sampleSettings.ttl + (turns w.versions - 0) + (w.lost - 0)) := by
  have sent : (Run.exec (step sampleSettings fun _ => false) (.new sampleConfig "p1") sampleRun).map
      (·.sent.length) = some 2 := by decide +kernel
  obtain ⟨w, ran, two⟩ := Option.map_eq_some_iff.mp sent
  exact ⟨w, two, (requests_bounded .start rfl (Run.reach_of_exec ran)).1⟩

end SiriusProxy.Client.Global
