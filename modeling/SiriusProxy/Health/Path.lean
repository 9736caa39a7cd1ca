import SiriusProxy.Error

namespace SiriusProxy

structure PoolPolicy where
  failureThreshold : Nat := 2
  cooldownSeconds : Nat := 30
  deriving DecidableEq, Repr

/-- Who pays for a path-class fault: the account, marked with the path streak in progress,
or the shared path. -/
inductive Charge where
  | account (streak : Option Nat)
  | path
  deriving DecidableEq, Repr

namespace PathHealth

/-- What one sent attempt says about the path; a fault holds its stable error code. -/
inductive Outcome where
  | healthy
  | fault (code : String)
  deriving DecidableEq, Repr

inductive Transition where
  | none
  | opened
  | probeFailed
  | recovered
  deriving DecidableEq, Repr

structure Change where
  transition : Transition := .none
  attributed : Option Nat := .none
  deriving DecidableEq, Repr

structure State where
  failures : Nat := 0
  epoch : Nat := 0
  firstSource : Option String := none
  attributed : Bool := false
  lastAttributed : Nat := 0
  openUntil : Option Instant := none
  probing : Bool := false
  deriving DecidableEq, Repr

/-- The immutable part of `PathHealth`. -/
structure Settings where
  distinctSources : Bool
  threshold : Nat
  interval : Nat
  deriving DecidableEq, Repr

def maxProbeInterval : Nat := fromSecs 5

def new (policy : PoolPolicy) (distinctSources : Bool) : Settings where
  distinctSources := distinctSources
  threshold := policy.failureThreshold
  interval := min (fromSecs policy.cooldownSeconds) maxProbeInterval

/-- The start of a fault: a first fault opens a new streak. -/
def beginStreak (s : State) : State :=
  if s.failures = 0 then
    { s with epoch := s.epoch + 1, firstSource := none, attributed := false }
  else s

/-- Whether this fault makes an unattributed streak the path's, and the source it remembers. -/
def blame (cfg : Settings) (source first : Option String) : Bool × Option String :=
  match source with
  | some name =>
    if cfg.distinctSources then
      match first with
      | none => (false, some name)
      | some earlier => (earlier != name, first)
    else (true, first)
  | none => (true, first)

/-- Attribution of the current streak, reported in the change when it happens now. -/
def attributeStreak (cfg : Settings) (source : Option String) (s : State) : State × Option Nat :=
  if s.attributed then (s, none)
  else
    match blame cfg source s.firstSource with
    | (true, first) =>
      ({ s with firstSource := first, attributed := true, lastAttributed := s.epoch }, some s.epoch)
    | (false, first) => ({ s with firstSource := first }, none)

/-- Opens the path, or extends its open interval, at the threshold of an attributed streak. -/
def trip (cfg : Settings) (now : Instant) (s : State) : State × Transition :=
  if s.attributed ∧ cfg.threshold ≤ s.failures then
    ({ s with openUntil := some (now + cfg.interval) },
      match s.openUntil.isSome, s.probing with
      | false, _ => .opened
      | true, true => .probeFailed
      | true, false => .none)
  else (s, .none)

def recordFault (cfg : Settings) (now : Instant) (source : Option String) (s : State) : State × Change :=
  let begun := beginStreak s
  let counted := { begun with failures := satSucc begun.failures }
  let (judged, streak) := attributeStreak cfg source counted
  let (tripped, transition) := trip cfg now judged
  (tripped, { transition := transition, attributed := streak })

def record (cfg : Settings) (now : Instant) (source : Option String) (outcome : Outcome) (s : State) :
    State × Change :=
  match outcome with
  | .healthy =>
    ({ s with failures := 0, attributed := false, firstSource := none, openUntil := none },
      { transition := if s.openUntil.isSome then .recovered else .none })
  | .fault _ => recordFault cfg now source s

/-- Admission of one logical call: refused while open, and a probe at a time afterwards. The
answer says whether the ticket is a probe. -/
def admitCall (now : Instant) (s : State) : Option (State × Bool) :=
  match s.openUntil with
  | none => some (s, false)
  | some limit => if now < limit ∨ s.probing then none else some ({ s with probing := true }, true)

/-- `Drop for Ticket`. -/
def dropTicket (probe : Bool) (s : State) : State :=
  if probe then { s with probing := false } else s

def charge (s : State) : Charge :=
  if s.attributed ∨ s.openUntil.isSome then .path
  else .account (if 0 < s.failures then some s.epoch else none)

/-- Whether streak `epoch` has been attributed to the path, as far as the last one tells. -/
def attributedTo (s : State) (epoch : Nat) : Bool := s.lastAttributed == epoch

/-- A streak is in progress while its number is current and faults are counted. -/
def InProgress (s : State) (streak : Nat) : Prop := s.epoch = streak ∧ 0 < s.failures

theorem charge_streak {s : State} {streak : Nat} (charged : charge s = .account (some streak)) :
    InProgress s streak ∧ s.attributed = false := by
  unfold charge at charged
  split at charged
  · cases charged
  · rename_i open_
    split at charged
    · rename_i counting
      cases charged
      exact ⟨⟨rfl, counting⟩, by simpa using fun attributed => open_ (Or.inl attributed)⟩
    · cases charged

theorem satSucc_pos (n : Nat) : 0 < satSucc n := le_satSucc (Nat.le_add_left 1 n) (by decide)

theorem attributeStreak_spec (cfg : Settings) (source : Option String) (s : State) :
    let r := attributeStreak cfg source s
    r.1.epoch = s.epoch ∧ r.1.failures = s.failures ∧
      ((r.2 = none ∧ r.1.lastAttributed = s.lastAttributed) ∨
        (r.2 = some s.epoch ∧ r.1.lastAttributed = s.epoch)) := by
  unfold attributeStreak
  split
  · exact ⟨rfl, rfl, Or.inl ⟨rfl, rfl⟩⟩
  · split
    · exact ⟨rfl, rfl, Or.inr ⟨rfl, rfl⟩⟩
    · exact ⟨rfl, rfl, Or.inl ⟨rfl, rfl⟩⟩

theorem trip_frame (cfg : Settings) (now : Instant) (s : State) :
    (trip cfg now s).1.epoch = s.epoch ∧ (trip cfg now s).1.failures = s.failures ∧
      (trip cfg now s).1.lastAttributed = s.lastAttributed := by
  unfold trip
  split <;> exact ⟨rfl, rfl, rfl⟩

/-- Everything a fault does to the streak bookkeeping. The streak in progress goes on or the
next one begins; it is reported as attributed exactly when it becomes so by this fault. -/
theorem recordFault_streak (cfg : Settings) (now : Instant) (source : Option String) (s : State) :
    let r := recordFault cfg now source s
    r.1.epoch = (beginStreak s).epoch ∧ 0 < r.1.failures ∧
      ((r.2.attributed = none ∧ r.1.lastAttributed = s.lastAttributed) ∨
        (r.2.attributed = some r.1.epoch ∧ r.1.lastAttributed = r.1.epoch)) := by
  have begun : (beginStreak s).lastAttributed = s.lastAttributed := by
    unfold beginStreak
    split <;> rfl
  obtain ⟨judgedEpoch, judgedFailures, judged⟩ := attributeStreak_spec cfg source
    { beginStreak s with failures := satSucc (beginStreak s).failures }
  obtain ⟨epoch, failures, last⟩ := trip_frame cfg now (attributeStreak cfg source
    { beginStreak s with failures := satSucc (beginStreak s).failures }).1
  simp only [recordFault]
  refine ⟨epoch.trans judgedEpoch, ?_, ?_⟩
  · rw [failures, judgedFailures]
    exact satSucc_pos _
  · rw [epoch, last, judgedEpoch]
    exact judged.imp (fun same => ⟨same.1, same.2.trans begun⟩) id

/-- A streak that is current or newly attributed after a record, and that existed before it,
was already in progress. -/
theorem record_streak (cfg : Settings) (now : Instant) (source : Option String) (outcome : Outcome) (s : State) :
    let r := record cfg now source outcome s
    s.epoch ≤ r.1.epoch ∧ (∀ streak, r.2.attributed = some streak → streak = r.1.epoch) ∧
      ∀ streak ≤ s.epoch, InProgress r.1 streak ∨ r.2.attributed = some streak → InProgress s streak := by
  cases outcome with
  | healthy => simp [record, InProgress]
  | fault code =>
    obtain ⟨epoch, counting, attributed⟩ := recordFault_streak cfg now source s
    have begun : (s.failures = 0 ∧ (beginStreak s).epoch = s.epoch + 1) ∨
        (0 < s.failures ∧ (beginStreak s).epoch = s.epoch) := by
      unfold beginStreak
      split
      · rename_i zero
        exact Or.inl ⟨zero, rfl⟩
      · rename_i some_
        exact Or.inr ⟨by omega, rfl⟩
    have named : ∀ streak, (recordFault cfg now source s).2.attributed = some streak →
        streak = (recordFault cfg now source s).1.epoch := by
      intro streak reported
      rcases attributed with ⟨silent, _⟩ | ⟨loud, _⟩
      · cases silent.symm.trans reported
      · exact (Option.some.inj (loud.symm.trans reported)).symm
    simp only [record]
    refine ⟨by omega, named, ?_⟩
    intro streak existed current
    have same : (recordFault cfg now source s).1.epoch = streak := by
      rcases current with progress | reported
      · exact progress.1
      · exact (named streak reported).symm
    rcases begun with ⟨_, next⟩ | ⟨going, stays⟩
    · omega
    · exact ⟨by omega, going⟩

theorem admitCall_frame {now : Instant} {s t : State} {probe : Bool} (admitted : admitCall now s = some (t, probe)) :
    t.epoch = s.epoch ∧ t.failures = s.failures ∧ t.lastAttributed = s.lastAttributed := by
  unfold admitCall at admitted
  split at admitted
  · cases admitted
    exact ⟨rfl, rfl, rfl⟩
  · split at admitted
    · cases admitted
    · cases admitted
      exact ⟨rfl, rfl, rfl⟩

theorem dropTicket_frame (probe : Bool) (s : State) :
    (dropTicket probe s).epoch = s.epoch ∧ (dropTicket probe s).failures = s.failures ∧
      (dropTicket probe s).lastAttributed = s.lastAttributed := by
  unfold dropTicket
  split <;> exact ⟨rfl, rfl, rfl⟩

end PathHealth

end SiriusProxy
