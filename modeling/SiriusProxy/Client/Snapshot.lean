import SiriusProxy.Client.Resources
import SiriusProxy.Lib.Run
import Mathlib.Data.Prod.Lex

namespace SiriusProxy.Client
open Resources

/-- A value that is not visible ASCII is listed as `none`. -/
abbrev HeaderMap := List (String × Option String)

def header (headers : HeaderMap) (key : String) : Option String := (headers.lookup key).join

def isCodeChar (c : Char) : Bool := isAsciiUpper c || isAsciiDigit c || c == '_'

def applicationCode (md : HeaderMap) : Option String :=
  (header md "x-sirius-error-code").filter fun v =>
    v != "" && decide (v.utf8ByteSize ≤ 64) && v.toList.all isCodeChar

/-- The parts of the configuration that the state update of a response reads. `cdnCredentialEnv`
names the secret of a CDN root and `cdnSecrets` holds those that are set. -/
structure Config where
  region : Region
  environment : String
  platform : Platform
  clientVersion : String
  versionMaxAgeSeconds : Nat
  defaultCdnRoot : String
  cdnCredentialEnv : List (String × String)
  cdnSecrets : List (String × String)

structure Observation where
  observedAt : Option Instant := none
  grpcStatus : Option Nat := none
  applicationCode : Option String := none
  serverTime : Option String := none
  maintenance : Bool := false
  masterVersion : Option String := none
  resourceVersion : Option String := none
  deriving DecidableEq, Repr

structure State where
  observation : Observation := {}
  masterPair : Option (String × Option String) := none
  snapshot : Option ResourceSnapshot := none
  snapshotStale : Bool := true
  cdnRoot : String
  credentialValid : Bool
  versionFreshUntil : Option Instant := none
  versionSuspect : Bool := false
  versionRetryAt : Option Instant := none
  clientUpdateRequired : Bool := false

def State.new (config : Config) : State where
  cdnRoot := config.defaultCdnRoot
  credentialValid := (config.cdnSecrets.lookup config.defaultCdnRoot).isSome

/-- The match on the application code in `observe`. -/
def State.signal (status : Option Nat) (sentVersion : Option String) (s : State) : State :=
  if s.observation.applicationCode = some masterVersionMismatch ∧ s.versionSuspect = false ∧ sentVersion.isSome ∧
      sentVersion = s.observation.masterVersion then
    { s with versionSuspect := true }
  else if s.observation.applicationCode = some SiriusProxy.clientUpdateRequired ∧ s.clientUpdateRequired = false then
    { s with clientUpdateRequired := true }
  else if status = some 0 then { s with clientUpdateRequired := false }
  else s

/-- The answer as the observation has it. -/
def State.record (rfc3339 : String → Bool) (md : HeaderMap) (status : Option Nat) (sentVersion : Option String)
    (now : Instant) (s : State) : State :=
  let code := applicationCode md
  let s : State := { s with observation := { s.observation with
    observedAt := some now, grpcStatus := status, applicationCode := code,
    maintenance := code == some "UNDER_MAINTENANCE" } }
  let s := s.signal status sentVersion
  { s with observation := { s.observation with serverTime := (header md "x-server-time").filter rfc3339 } }

def State.failed (status : Option Nat) (s : State) : State :=
  if status = some 0 then s else { s with snapshotStale := true }

/-- `x-sirius-env` in `observe`. -/
def State.follow (root : Option String) (s : State) : State :=
  match root with
  | none => s
  | some root =>
    if root = s.cdnRoot then s
    else { s with snapshotStale := true, credentialValid := false, cdnRoot := root }

/-- `x-sirius-cred` in `observe`. -/
def State.verify (config : Config) (credential : Option String) (s : State) : State :=
  match credential with
  | none => s
  | some credential =>
    if config.cdnSecrets.lookup s.cdnRoot = some credential then { s with credentialValid := true }
    else { s with credentialValid := false, snapshotStale := true }

def State.observe (rfc3339 : String → Bool) (config : Config) (md : HeaderMap) (status : Option Nat)
    (sentVersion : Option String) (now : Instant) (s : State) : State :=
  (((s.record rfc3339 md status sentVersion now).failed status).follow (header md "x-sirius-env")).verify config
    (header md "x-sirius-cred")

def versionRetry : Nat := fromSecs 30

/-- The state update of a JP VERSION response, between its `observe` and its `promote_snapshot`. -/
def State.version (config : Config) (version : String) (bodyResource asset : Option String) (now : Instant)
    (s : State) : State :=
  { s with
    versionRetryAt :=
      if s.versionSuspect ∧ s.observation.masterVersion = some version then some (now + versionRetry) else none
    versionSuspect := false
    versionFreshUntil := some (now + fromSecs config.versionMaxAgeSeconds)
    observation := { s.observation with masterVersion := some version, resourceVersion := bodyResource }
    masterPair := some (version, asset) }

/-- The end of `call_admitted` for a call that failed with `Timeout`, `Transport` or `Protocol`. -/
def State.callFailed (now : Instant) (s : State) : State :=
  { s with snapshotStale := true, observation := { s.observation with grpcStatus := none, observedAt := some now } }

/-- An accepted `reload_protocol`. -/
def State.reload (s : State) : State :=
  { s with
    observation := {}
    masterPair := none
    versionFreshUntil := none
    versionSuspect := false
    versionRetryAt := none
    snapshotStale := true }

variable {Value Version : Type} [LinearOrder Version]

/-- What `promote_snapshot` finds for a response in the state it meets: the selected pair and the
credential reference of the root in force. -/
def State.selected (formats : Formats Value Version) (config : Config) (raw : String) (s : State) :
    Option ((String × String) × String) :=
  match selectPlatform formats raw config.clientVersion config.platform, config.cdnCredentialEnv.lookup s.cdnRoot with
  | .ok pair, some reference => if s.credentialValid then some (pair, reference) else none
  | _, _ => none

def State.build (config : Config) (protocolVersion : String) (now : Instant) (s : State)
    (found : (String × String) × String) : State :=
  { s with
    snapshot := some {
      region := config.region
      environment := config.environment
      platform := config.platform
      clientVersion := config.clientVersion
      protocolVersion := protocolVersion
      masterVersion := s.observation.masterVersion
      resourceVersion := found.1.1
      platformHash := found.1.2
      effectiveCdnRoot := s.cdnRoot
      credentialRef := found.2
      observedAt := now }
    snapshotStale := false }

def State.promote (formats : Formats Value Version) (config : Config) (md : HeaderMap) (protocolVersion : String)
    (now : Instant) (s : State) : State :=
  if config.region.isGlobal then s
  else match header md "x-asset-version" with
    | none => s
    | some raw => match s.selected formats config raw with
      | none => { s with snapshotStale := true }
      | some found => s.build config protocolVersion now found

/-- A response in the order of observation, with the CDN root that was in force right after it. -/
structure Response where
  md : HeaderMap
  status : Option Nat
  root : String
  promoted : Bool := false

/-- `own` is the response from which the snapshot was built. -/
structure World where
  state : State
  responses : List Response := []
  own : Option Nat := none

inductive Label where
  | observe (md : HeaderMap) (status : Option Nat) (sentVersion : Option String) (now : Instant)
  | version (version : String) (bodyResource asset : Option String) (now : Instant)
  | promote (index : Nat) (protocolVersion : String) (now : Instant)
  | callFailed (now : Instant)
  | reload

def World.observed (rfc3339 : String → Bool) (config : Config) (w : World) (md : HeaderMap) (status : Option Nat)
    (sentVersion : Option String) (now : Instant) : World :=
  let state := w.state.observe rfc3339 config md status sentVersion now
  { w with state, responses := w.responses ++ [{ md, status, root := state.cdnRoot }] }

/-- The promotion of response `index` builds a snapshot in the state it meets. -/
def World.builds (formats : Formats Value Version) (config : Config) (w : World) (r : Response) : Bool :=
  !config.region.isGlobal && ((header r.md "x-asset-version").bind (w.state.selected formats config)).isSome

def World.promoted (formats : Formats Value Version) (config : Config) (w : World) (index : Nat)
    (protocolVersion : String) (now : Instant) (r : Response) : World where
  state := w.state.promote formats config r.md protocolVersion now
  responses := w.responses.set index { r with promoted := true }
  own := if w.builds formats config r then some index else w.own

/-- A promotion follows the observation of the same response, at most once, and only when its
status was 0; the other steps come in any order. -/
def step (formats : Formats Value Version) (config : Config) (w : World) : Label → Option World
  | .observe md status sentVersion now => some (w.observed formats.rfc3339 config md status sentVersion now)
  | .version version bodyResource asset now =>
    some { w with state := w.state.version config version bodyResource asset now }
  | .promote index protocolVersion now =>
    match w.responses[index]? with
    | none => none
    | some r =>
      if r.promoted = false ∧ r.status = some 0 then some (w.promoted formats config index protocolVersion now r) else none
  | .callFailed now => some { w with state := w.state.callFailed now }
  | .reload => some { w with state := w.state.reload }

/-- The snapshot that is not stale belongs to its own response: that response's root is the root
in force, and no failed response was observed after it. -/
def Paired (formats : Formats Value Version) (config : Config) (w : World) : Prop :=
  w.state.snapshotStale = false → ∃ snapshot index own raw,
    w.state.snapshot = some snapshot ∧ w.own = some index ∧ w.responses[index]? = some own ∧
    header own.md "x-asset-version" = some raw ∧
    selectPlatform formats raw config.clientVersion config.platform =
      .ok (snapshot.resourceVersion, snapshot.platformHash) ∧
    own.root = snapshot.effectiveCdnRoot ∧ snapshot.effectiveCdnRoot = w.state.cdnRoot ∧
    w.state.credentialValid = true ∧
    config.cdnCredentialEnv.lookup snapshot.effectiveCdnRoot = some snapshot.credentialRef ∧
    ∀ later r, index < later → w.responses[later]? = some r → r.status = some 0

/-- Between its observation and its promotion no other response left another root in force or failed. -/
def Undisturbed (w : World) (index : Nat) (own : Response) : Prop :=
  w.state.cdnRoot = own.root ∧ ∀ later r, index < later → w.responses[later]? = some r → r.status = some 0

/-- Of the promotions that build a snapshot, only those of undisturbed responses are allowed. -/
def Ordered (formats : Formats Value Version) (config : Config) (w : World) : Label → Prop
  | .promote index _ _ => ∀ own, w.responses[index]? = some own → w.builds formats config own = true →
      Undisturbed w index own
  | _ => True

variable {formats : Formats Value Version} {config : Config} {w x : World} {s : State}

theorem State.signal_frame (status : Option Nat) (sentVersion : Option String) :
    (s.signal status sentVersion).snapshot = s.snapshot ∧
      (s.signal status sentVersion).snapshotStale = s.snapshotStale ∧
      (s.signal status sentVersion).cdnRoot = s.cdnRoot ∧
      (s.signal status sentVersion).credentialValid = s.credentialValid := by
  unfold State.signal
  split_ifs <;> exact ⟨rfl, rfl, rfl, rfl⟩

theorem State.record_frame (rfc3339 : String → Bool) (md : HeaderMap) (status : Option Nat)
    (sentVersion : Option String) (now : Instant) :
    (s.record rfc3339 md status sentVersion now).snapshot = s.snapshot ∧
      (s.record rfc3339 md status sentVersion now).snapshotStale = s.snapshotStale ∧
      (s.record rfc3339 md status sentVersion now).cdnRoot = s.cdnRoot ∧
      (s.record rfc3339 md status sentVersion now).credentialValid = s.credentialValid :=
  State.signal_frame status sentVersion

theorem State.failed_fresh {status : Option Nat} (fresh : (s.failed status).snapshotStale = false) :
    status = some 0 ∧ s.failed status = s := by
  unfold State.failed at fresh ⊢
  split at fresh
  · rename_i succeeded
    exact ⟨succeeded, if_pos succeeded⟩
  · cases fresh

theorem State.follow_fresh {root : Option String} (fresh : (s.follow root).snapshotStale = false) :
    s.follow root = s := by
  unfold State.follow at fresh ⊢
  split at fresh
  · rfl
  · split at fresh
    · rename_i same
      exact if_pos same
    · cases fresh

theorem State.verify_fresh {credential : Option String}
    (fresh : (s.verify config credential).snapshotStale = false) :
    s.snapshotStale = false ∧ (s.verify config credential).cdnRoot = s.cdnRoot ∧
      (s.verify config credential).snapshot = s.snapshot ∧
      (s.credentialValid = true → (s.verify config credential).credentialValid = true) := by
  unfold State.verify at fresh ⊢
  split at fresh
  · exact ⟨fresh, rfl, rfl, id⟩
  · split at fresh
    · rename_i same
      rw [if_pos same]
      exact ⟨fresh, rfl, rfl, fun _ => rfl⟩
    · cases fresh

/-- A snapshot survives a response only when the response succeeded, kept the root in force and did
not contradict its credential. -/
theorem State.observe_fresh {rfc3339 : String → Bool} {md : HeaderMap} {status : Option Nat}
    {sentVersion : Option String} {now : Instant}
    (fresh : (s.observe rfc3339 config md status sentVersion now).snapshotStale = false) :
    status = some 0 ∧ s.snapshotStale = false ∧
      (s.observe rfc3339 config md status sentVersion now).cdnRoot = s.cdnRoot ∧
      (s.observe rfc3339 config md status sentVersion now).snapshot = s.snapshot ∧
      (s.credentialValid = true →
        (s.observe rfc3339 config md status sentVersion now).credentialValid = true) := by
  obtain ⟨snapshot, stale, root, valid⟩ := State.record_frame (s := s) rfc3339 md status sentVersion now
  unfold State.observe at fresh ⊢
  generalize s.record rfc3339 md status sentVersion now = t at *
  obtain ⟨followed, rootKept, snapshotKept, validKept⟩ := State.verify_fresh fresh
  have stayed := State.follow_fresh followed
  rw [stayed] at followed rootKept snapshotKept validKept ⊢
  obtain ⟨succeeded, same⟩ := State.failed_fresh followed
  rw [same] at followed rootKept snapshotKept validKept ⊢
  refine ⟨succeeded, stale.symm.trans followed, rootKept.trans root, snapshotKept.trans snapshot, fun before => ?_⟩
  exact validKept (valid.trans before)

/-- A promotion builds the snapshot or leaves none that is not stale, unless it is none of its concern. -/
theorem State.promote_cases (s : State) (formats : Formats Value Version) (config : Config) (md : HeaderMap)
    (protocolVersion : String) (now : Instant) :
    (∃ raw found, header md "x-asset-version" = some raw ∧ s.selected formats config raw = some found ∧
      config.region.isGlobal = false ∧
      s.promote formats config md protocolVersion now = s.build config protocolVersion now found) ∨
    (s.promote formats config md protocolVersion now).snapshotStale = true ∨
    s.promote formats config md protocolVersion now = s := by
  unfold State.promote
  split
  · exact Or.inr (Or.inr rfl)
  · rename_i own
    split
    · exact Or.inr (Or.inr rfl)
    · rename_i raw carried
      split
      · exact Or.inr (Or.inl rfl)
      · rename_i found selected
        exact Or.inl ⟨raw, found, carried, selected, by simpa using own, rfl⟩

theorem State.selected_eq_some {raw : String} {found : (String × String) × String}
    (selected : s.selected formats config raw = some found) :
    selectPlatform formats raw config.clientVersion config.platform = .ok found.1 ∧
      config.cdnCredentialEnv.lookup s.cdnRoot = some found.2 ∧ s.credentialValid = true := by
  unfold State.selected at selected
  split at selected
  · rename_i pair reference chosen named
    split at selected
    · rename_i valid
      cases selected
      exact ⟨chosen, named, valid⟩
    · cases selected
  · cases selected

/-- A promotion that builds a snapshot pairs it exactly when its response was undisturbed. -/
theorem paired_built {index : Nat} {own : Response} {protocolVersion : String} {now : Instant}
    (there : w.responses[index]? = some own) (built : w.builds formats config own = true) :
    Paired formats config (w.promoted formats config index protocolVersion now own) ↔ Undisturbed w index own := by
  have unique := built
  simp only [World.builds, Bool.and_eq_true, Bool.not_eq_true'] at built
  obtain ⟨family, found⟩ := built
  obtain ⟨found, selected⟩ := Option.isSome_iff_exists.mp found
  obtain ⟨raw, carried, selected⟩ := Option.bind_eq_some_iff.mp selected
  have promoted : w.state.promote formats config own.md protocolVersion now =
      w.state.build config protocolVersion now found := by
    simp only [State.promote, family, carried, selected, Bool.false_eq_true, if_false]
  obtain ⟨chosen, named, valid⟩ := State.selected_eq_some selected
  have bound : index < w.responses.length := (List.getElem?_eq_some_iff.mp there).1
  have here : (w.responses.set index { own with promoted := true })[index]? = some { own with promoted := true } :=
    List.getElem?_set_self bound
  have others : ∀ later, index < later →
      (w.responses.set index { own with promoted := true })[later]? = w.responses[later]? :=
    fun later after => List.getElem?_set_ne (Nat.ne_of_lt after)
  simp only [Paired, World.promoted, promoted, State.build, unique, if_true, Option.some.injEq, true_implies]
  constructor
  · intro paired
    obtain ⟨snapshot, at_, owner, _, rfl, rfl, at_owner, -, -, root, -, -, -, quiet⟩ := paired
    cases here.symm.trans at_owner
    refine ⟨root.symm, fun later r after found => ?_⟩
    exact quiet later r after ((others later after).trans found)
  · intro ⟨root, quiet⟩
    refine ⟨_, index, _, raw, rfl, rfl, here, carried, chosen, root.symm, rfl, valid, named, fun later r after found => ?_⟩
    exact quiet later r after ((others later after).symm.trans found)

/-- The record of a promotion changes nothing else about a response. -/
theorem set_promoted {responses : List Response} {index at_ : Nat} {own r : Response}
    (there : responses[index]? = some own) :
    (responses.set index { own with promoted := true })[at_]? = some r →
      ∃ before, responses[at_]? = some before ∧ before.md = r.md ∧ before.status = r.status ∧ before.root = r.root := by
  intro found
  by_cases same : index = at_
  · subst same
    rw [List.getElem?_set_self (List.getElem?_eq_some_iff.mp there).1] at found
    cases found
    exact ⟨own, there, rfl, rfl, rfl⟩
  · rw [List.getElem?_set_ne same] at found
    exact ⟨r, found, rfl, rfl, rfl⟩

theorem get_promoted {responses : List Response} {index at_ : Nat} {own r : Response}
    (there : responses[index]? = some own) (found : responses[at_]? = some r) :
    ∃ after, (responses.set index { own with promoted := true })[at_]? = some after ∧ after.md = r.md ∧
      after.root = r.root := by
  by_cases same : index = at_
  · subst same
    cases there.symm.trans found
    exact ⟨_, List.getElem?_set_self (List.getElem?_eq_some_iff.mp there).1, rfl, rfl⟩
  · exact ⟨r, (List.getElem?_set_ne same).trans found, rfl, rfl⟩

theorem paired_unbuilt {index : Nat} {own : Response} {protocolVersion : String} {now : Instant}
    (there : w.responses[index]? = some own) (idle : w.builds formats config own = false)
    (paired : Paired formats config w) :
    Paired formats config (w.promoted formats config index protocolVersion now own) := by
  intro fresh
  simp only [World.promoted] at fresh
  rcases w.state.promote_cases formats config own.md protocolVersion now with
    ⟨raw, found, carried, selected, family, -⟩ | stale | same
  · have built : w.builds formats config own = true := by
      simp only [World.builds, family, carried, Option.bind_some, selected]
      rfl
    rw [idle] at built
    cases built
  · rw [stale] at fresh
    cases fresh
  · rw [same] at fresh
    obtain ⟨snapshot, at_, r, raw, held, owner, found, carried, chosen, root, inForce, valid, named, quiet⟩ :=
      paired fresh
    obtain ⟨after, foundAfter, md, rootAfter⟩ := get_promoted there found
    simp only [World.promoted, same, idle, Bool.false_eq_true, if_false]
    refine ⟨snapshot, at_, after, raw, held, owner, foundAfter, ?_, chosen, ?_, inForce, valid, named, ?_⟩
    · rw [md, carried]
    · rw [rootAfter, root]
    · intro later r' afterwards found'
      obtain ⟨before, foundBefore, -, status, -⟩ := set_promoted there found'
      rw [← status]
      exact quiet later before afterwards foundBefore

theorem paired_observed {md : HeaderMap} {status : Option Nat} {sentVersion : Option String} {now : Instant}
    (paired : Paired formats config w) :
    Paired formats config (w.observed formats.rfc3339 config md status sentVersion now) := by
  intro fresh
  obtain ⟨succeeded, before, root, kept, valid⟩ := State.observe_fresh fresh
  obtain ⟨snapshot, index, own, raw, held, owner, found, carried, chosen, ownRoot, inForce, trusted, named, quiet⟩ :=
    paired before
  have bound : index < w.responses.length := (List.getElem?_eq_some_iff.mp found).1
  refine ⟨snapshot, index, own, raw, kept.trans held, owner, ?_, carried, chosen, ownRoot, inForce.trans root.symm,
    valid trusted, named, fun later r after there => ?_⟩
  · exact (List.getElem?_append_left bound).trans found
  · by_cases old : later < w.responses.length
    · exact quiet later r after ((List.getElem?_append_left old).symm.trans there)
    · rw [World.observed, List.getElem?_append_right (Nat.not_lt.mp old)] at there
      have last : later - w.responses.length = 0 := by
        have := (List.getElem?_eq_some_iff.mp there).1
        simp only [List.length_cons, List.length_nil] at this
        omega
      rw [last] at there
      cases there
      exact succeeded

theorem Paired.step {label : Label} (paired : Paired formats config w) (ordered : Ordered formats config w label)
    (taken : step formats config w label = some x) : Paired formats config x := by
  cases label with
  | observe md status sentVersion now =>
    cases taken
    exact paired_observed paired
  | version version bodyResource asset now =>
    cases taken
    exact paired
  | promote index protocolVersion now =>
    simp only [Client.step] at taken
    split at taken
    · cases taken
    · rename_i own there
      split at taken
      · cases taken
        cases built : w.builds formats config own with
        | false => exact paired_unbuilt there built paired
        | true => exact (paired_built there built).mpr (ordered own there built)
      · cases taken
  | callFailed now =>
    cases taken
    intro fresh
    cases fresh
  | reload =>
    cases taken
    intro fresh
    cases fresh

/-- In every run in which only undisturbed responses build snapshots, every snapshot that is not
stale is paired; and a promotion that builds one for a disturbed response mispairs it. -/
theorem snapshot_paired (formats : Formats Value Version) (config : Config) :
    (∀ w, Run.Reach (step formats config) (Ordered formats config) { state := State.new config } w →
      Paired formats config w) ∧
    (∀ w x index protocolVersion now,
      step formats config w (.promote index protocolVersion now) = some x →
      ¬ Ordered formats config w (.promote index protocolVersion now) → ¬ Paired formats config x) := by
  constructor
  · intro w reach
    refine reach.invariant (fun fresh => ?_) fun _ _ _ paired ordered taken => paired.step ordered taken
    cases fresh
  · intro w x index protocolVersion now taken disordered paired
    apply disordered
    intro own there built
    simp only [step, there] at taken
    split at taken
    · cases taken
      exact (paired_built there built).mp paired
    · cases taken

def sampleRelease (version hash : String) : String :=
  "\x7b\"version\":\"" ++ version ++ "\",\"iOS\":\"" ++ hash ++ "\"\x7d"

/-- `serde_json` and `semver` on the two releases and the client version below. -/
def sampleFormats : Formats Release (Nat ×ₗ Nat ×ₗ Nat) where
  fromStr raw :=
    if raw = sampleRelease "r1" "h1" then some ⟨"r1", some "h1", none, none⟩
    else if raw = sampleRelease "r2" "h2" then some ⟨"r2", some "h2", none, none⟩
    else none
  live _ := none
  releases _ := none
  release v := some v
  version text := if text = "1.0.3" then some (toLex (1, toLex (0, 3))) else none
  rfc3339 _ := false

def sampleConfig : Config where
  region := .jp
  environment := "production"
  platform := .ios
  clientVersion := "1.0.3"
  versionMaxAgeSeconds := 300
  defaultCdnRoot := "https://a.example"
  cdnCredentialEnv := [("https://a.example", "CDN_A"), ("https://b.example", "CDN_B")]
  cdnSecrets := [("https://a.example", "secret-a"), ("https://b.example", "secret-b")]

def answerA : HeaderMap :=
  [("x-sirius-env", some "https://a.example"), ("x-asset-version", some (sampleRelease "r1" "h1"))]

def answerB : HeaderMap :=
  [("x-sirius-env", some "https://b.example"), ("x-sirius-cred", some "secret-b"),
    ("x-asset-version", some (sampleRelease "r2" "h2"))]

/-- Another answer of the same root, without a release of its own. -/
def answerAgain : HeaderMap := [("x-sirius-env", some "https://a.example")]

def observedTwo : World :=
  (({ state := State.new sampleConfig } : World).observed sampleFormats.rfc3339 sampleConfig answerA (some 0) none 1).observed
    sampleFormats.rfc3339 sampleConfig answerAgain (some 0) none 2

/-- A successful answer that leaves the root as it is may come between the two steps of the first. -/
theorem snapshot_paired_between : ∃ w, step sampleFormats sampleConfig observedTwo (.promote 0 "p1" 3) = some w ∧
    w.own = some 0 ∧ w.state.snapshotStale = false ∧ Paired sampleFormats sampleConfig w := by
  have run : (step sampleFormats sampleConfig observedTwo (.promote 0 "p1" 3)).map (fun w =>
      (w.own, w.state.snapshotStale)) = some (some 0, false) := by decide +kernel
  obtain ⟨w, taken, shown⟩ := Option.map_eq_some_iff.mp run
  have owner : w.own = some 0 := congrArg (·.1) shown
  have fresh : w.state.snapshotStale = false := congrArg (·.2) shown
  have ordered : Ordered sampleFormats sampleConfig observedTwo (.promote 0 "p1" 3) := by
    intro own there _
    cases there
    refine ⟨by decide +kernel, fun later r after found => ?_⟩
    have bound : later < 2 := (List.getElem?_eq_some_iff.mp found).1
    obtain rfl : later = 1 := by omega
    cases found
    rfl
  have reached : Run.Reach (step sampleFormats sampleConfig) (Ordered sampleFormats sampleConfig)
      { state := State.new sampleConfig } observedTwo :=
    .next (l := .observe answerAgain (some 0) none 2)
      (.next (l := .observe answerA (some 0) none 1) .start trivial rfl) trivial rfl
  exact ⟨w, taken, owner, fresh, (snapshot_paired sampleFormats sampleConfig).1 w (.next reached ordered taken)⟩

/-- The second response is observed between the two steps of the first. -/
def crossed : List Label :=
  [.observe answerA (some 0) none 1, .observe answerB (some 0) none 2, .promote 0 "p1" 3]

theorem snapshot_crossed : ∃ w, Run.Reach (step sampleFormats sampleConfig) (fun _ _ => True)
      { state := State.new sampleConfig } w ∧ ¬ Paired sampleFormats sampleConfig w := by
  have run : (Run.exec (step sampleFormats sampleConfig) { state := State.new sampleConfig } crossed).map (fun w =>
        (w.state.snapshotStale, w.state.cdnRoot, w.own, w.responses.map (·.root))) =
      some (false, "https://b.example", some 0, ["https://a.example", "https://b.example"]) := by decide +kernel
  obtain ⟨w, ran, shown⟩ := Option.map_eq_some_iff.mp run
  simp only [Prod.mk.injEq] at shown
  obtain ⟨fresh, inForce, owner, roots⟩ := shown
  refine ⟨w, Run.reach_of_exec ran, fun paired => ?_⟩
  obtain ⟨snapshot, index, own, raw, -, named, there, -, -, root, same, -⟩ := paired fresh
  cases owner.symm.trans named
  have first : (w.responses.map (·.root))[0]? = some own.root := by
    rw [List.getElem?_map, there, Option.map_some]
  rw [roots, root, same, inForce] at first
  simp at first

end SiriusProxy.Client
