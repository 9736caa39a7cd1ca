import SiriusProxy.Sdk.Shared

namespace SiriusProxy.Sdk
variable {L : Library} {identity : Identity} {disk : Loaded} {s m : State} {now t : Instant}

/-- An event at `t` or later is known. -/
def Knows (validatedAt : Option Instant) (refusal : Option Refusal) (t : Instant) : Prop :=
  (∃ v, validatedAt = some v ∧ t ≤ v) ∨ ∃ r, refusal = some r ∧ t ≤ r.receivedAt

theorem Knows.earlier {validatedAt : Option Instant} {refusal : Option Refusal} {u : Instant}
    (knows : Knows validatedAt refusal t) (before : u ≤ t) : Knows validatedAt refusal u := by
  rcases knows with ⟨v, known, late⟩ | ⟨r, known, late⟩
  · exact Or.inl ⟨v, known, Nat.le_trans before late⟩
  · exact Or.inr ⟨r, known, Nat.le_trans before late⟩

theorem newer_false_iff : s.newer t = false ↔ Knows s.validatedAt s.refusal t := by
  constructor
  · intro old
    by_contra unknown
    have new : s.newer t = true := by
      refine newer_iff.mpr ⟨fun v known => ?_, fun r known => ?_⟩
      · exact Nat.lt_of_not_le fun late => unknown (Or.inl ⟨v, known, late⟩)
      · exact Nat.lt_of_not_le fun late => unknown (Or.inr ⟨r, known, late⟩)
    rw [old] at new
    cases new
  · rintro (⟨v, known, late⟩ | ⟨r, known, late⟩)
    · exact newer_false_of_validated known late
    · exact newer_false_of_refusal known late

/-- What the file knows, the merged state knows. -/
theorem Merged.knows_file (merged : Merged disk s m) (ordered : Ordered disk.validatedAt disk.refusal)
    (knows : Knows disk.validatedAt disk.refusal t) : Knows m.validatedAt m.refusal t := by
  obtain ⟨refusals, times⟩ := merged.settled ordered
  rcases knows with ⟨v, known, late⟩ | ⟨r, known, late⟩
  · exact (newer_false_iff.mp (times v known)).earlier late
  · exact (newer_false_iff.mp (refusals r known)).earlier late

/-- A merge forgets nothing. -/
theorem Merged.knows_state (merged : Merged disk s m) (knows : Knows s.validatedAt s.refusal t) :
    Knows m.validatedAt m.refusal t := by
  have before : ∀ {u}, s.newer u = true → t ≤ u := by
    intro u new
    obtain ⟨times, refusals⟩ := newer_iff.mp new
    rcases knows with ⟨v, known, late⟩ | ⟨r, known, late⟩
    · exact Nat.le_of_lt (Nat.lt_of_le_of_lt late (times v known))
    · exact Nat.le_of_lt (Nat.lt_of_le_of_lt late (refusals r known))
  cases merged with
  | same _ _ => exact knows
  | refusal _ new => exact Or.inr ⟨_, rfl, before new⟩
  | session _ new _ _ => exact Or.inl ⟨_, rfl, before new⟩
  | time _ new _ _ => exact Or.inl ⟨_, rfl, before new⟩

namespace Shared

/-- What every state keeps, given the refusals and validations it can know of. -/
structure Sound (L : Library) (identity : Identity) (written : List Refusal) (validations : List Instant)
    (s : State) : Prop where
  exclusive : s.account.isSome → s.refusal = none
  fits : ∀ a, s.account = some a → Fits L identity a.idToken a.mid
  time : ∀ v, s.validatedAt = some v → v ∈ validations
  refusal : ∀ r, s.refusal = some r → r ∈ written

structure FileSound (L : Library) (identity : Identity) (written : List Refusal) (validations : List Instant)
    (p : Persisted) : Prop where
  schema : p.schema = 1
  uid : p.uid = identity.uid
  fingerprint : p.accessKeyFingerprint = identity.accessKeyFingerprint
  fits : Fits L identity p.idToken p.mid
  ordered : Ordered p.validatedAt p.refusal
  time : ∀ v, p.validatedAt = some v → v ∈ validations
  refusal : ∀ r, p.refusal = some r → r ∈ written

variable {written wider : List Refusal} {validations more : List Instant} {p : Persisted}

theorem Sound.mono (sound : Sound L identity written validations s) (refusals : written ⊆ wider)
    (times : validations ⊆ more) : Sound L identity wider more s :=
  ⟨sound.exclusive, sound.fits, fun v known => times (sound.time v known),
    fun r known => refusals (sound.refusal r known)⟩

theorem FileSound.mono (sound : FileSound L identity written validations p) (refusals : written ⊆ wider)
    (times : validations ⊆ more) : FileSound L identity wider more p :=
  ⟨sound.schema, sound.uid, sound.fingerprint, sound.fits, sound.ordered,
    fun v known => times (sound.time v known), fun r known => refusals (sound.refusal r known)⟩

theorem FileSound.readable (sound : FileSound L identity written validations p) (now : Instant) :
    ∃ disk, read L identity now p = some disk := read_of_fits sound.fits sound.schema sound.uid sound.fingerprint

theorem Sound.persisted (compact : Compact L identity) (sound : Sound L identity written validations s)
    (ordered : Ordered s.validatedAt s.refusal) :
    FileSound L identity written validations (s.persisted identity) := by
  refine ⟨rfl, rfl, rfl, ?_, ordered, sound.time, sound.refusal⟩
  unfold State.persisted
  cases kept : s.account.filter fun _ => !s.stale with
  | none => exact compact.fits
  | some a => exact sound.fits a (Option.filter_eq_some_iff.mp kept).1

theorem Sound.merged (sound : Sound L identity written validations s)
    (file : FileSound L identity written validations p) (done : read L identity now p = some disk)
    (merged : Merged disk s m) : Sound L identity written validations m := by
  obtain ⟨times, refusals, account⟩ := read_events done
  refine ⟨merged.exclusive sound.exclusive, ?_, ?_, ?_⟩
  · intro a held
    cases merged with
    | same _ _ => exact sound.fits a held
    | refusal _ _ => cases held
    | time _ _ _ _ => exact sound.fits a held
    | session _ _ _ present =>
      rw [account] at present
      split_ifs at present
      cases present
      cases held
      exact file.fits
  · intro v known
    cases merged with
    | same _ _ => exact sound.time v known
    | refusal _ _ => exact sound.time v known
    | session found _ _ _ =>
      cases known
      exact file.time _ (times.symm.trans found)
    | time found _ _ _ =>
      cases known
      exact file.time _ (times.symm.trans found)
  · intro r known
    cases merged with
    | same _ _ => exact sound.refusal r known
    | refusal found _ =>
      cases known
      exact file.refusal _ (refusals.symm.trans found)
    | session _ _ _ _ => cases known
    | time _ _ _ _ => exact sound.refusal r known

/-- The merge of a sound file: the state stays sound, knows what the file knows and forgets
nothing; a state without a refusal is in order afterwards. -/
theorem Sound.merge {file : Option Persisted} (sound : Sound L identity written validations s)
    (files : ∀ p, file = some p → FileSound L identity written validations p) (now : Instant) :
    Sound L identity written validations (s.merge L identity now file) ∧
      (∀ p t, file = some p → Knows p.validatedAt p.refusal t →
        Knows (s.merge L identity now file).validatedAt (s.merge L identity now file).refusal t) ∧
      (∀ t, Knows s.validatedAt s.refusal t →
        Knows (s.merge L identity now file).validatedAt (s.merge L identity now file).refusal t) ∧
      (s.refusal = none →
        Ordered (s.merge L identity now file).validatedAt (s.merge L identity now file).refusal) := by
  cases file with
  | none =>
    refine ⟨sound, nofun, fun _ knows => knows, fun signedIn v r _ known => ?_⟩
    cases signedIn.symm.trans known
  | some p =>
    obtain ⟨disk, done⟩ := (files p rfl).readable now
    have merged : Merged disk s (s.merge L identity now (some p)) := by
      unfold State.merge
      rw [Option.bind_some, done]
      exact mergeLoaded_merged disk s
    obtain ⟨times, refusals, -⟩ := read_events done
    refine ⟨sound.merged (files p rfl) done merged, ?_, fun t knows => merged.knows_state knows, ?_⟩
    · rintro _ t ⟨⟩ knows
      refine merged.knows_file ?_ ?_
      · rw [times, refusals]
        exact (files p rfl).ordered
      · rw [times, refusals]
        exact knows
    · intro signedIn
      refine merged.ordered (fun v r _ known => ?_) fun _ _ _ _ _ => signedIn
      cases signedIn.symm.trans known

/-- The refusal of a `persist` under way that is not in the file yet. -/
def Process.unwritten (q : Process) : List Refusal := if q.recording then q.state.refusal.toList else []

/-- Times never meet, and a login after a refusal came after its retry time. -/
structure History (retry : Nat) (w : World) : Prop where
  refusals : ∀ r ∈ w.written, r.receivedAt ≤ w.clock
  times : ∀ v ∈ w.validations, v ≤ w.clock
  apart : ∀ r ∈ w.written, ∀ v ∈ w.validations, v ≠ r.receivedAt
  distinct : ∀ r ∈ w.written, ∀ k ∈ w.written, k.receivedAt = r.receivedAt → k = r
  spent : ∀ r ∈ w.written, ∀ v ∈ w.validations, r.receivedAt ≤ v → r.receivedAt + retry ≤ w.clock

structure ProcessInv (L : Library) (identity : Identity) (retry : Nat) (w : World) (pid : Nat) (q : Process) :
    Prop where
  sound : Sound L identity (q.unwritten ++ w.written) w.validations q.state
  pending : ∀ p, q.pending = some p → p.content = q.state.persisted identity ∧
    Ordered q.state.validatedAt q.state.refusal ∧
    ∀ r ∈ w.written, Knows q.state.validatedAt q.state.refusal r.receivedAt
  recording : q.recording = true → q.phase = some .recorded
  newest : ∀ r ∈ q.unwritten, r.receivedAt ≤ w.clock ∧ (∀ v ∈ w.validations, v < r.receivedAt) ∧
    ∀ k ∈ w.written, k.receivedAt < r.receivedAt
  holder : ∀ phase, q.phase = some phase → phase.holds = true → w.holder = some pid
  knows : q.phase = some .refreshed → ∀ r ∈ w.written, Knows q.state.validatedAt q.state.refusal r.receivedAt
  expired : q.phase = some .cleared ∨ q.phase = some .sent → ∀ r ∈ w.written, r.receivedAt + retry ≤ w.clock

structure Inv (L : Library) (identity : Identity) (retry : Nat) (w : World) : Prop where
  processes : ∀ pid q, w.processes pid = some q → ProcessInv L identity retry w pid q
  file : ∀ p, w.file = some p → FileSound L identity w.written w.validations p
  kept : ∀ r ∈ w.written, ∃ p, w.file = some p ∧ Knows p.validatedAt p.refusal r.receivedAt
  history : History retry w

variable {retry interval : Nat} {w x : World} {pid : Nat} {q : Process} {phase : Phase}

theorem unwritten_of_quiet (quiet : q.recording = false) : q.unwritten = [] := by
  unfold Process.unwritten
  rw [quiet]
  rfl

theorem recording_of_idle (idle : q.pending.isNone = true) : q.recording = false := by
  unfold Process.recording
  rw [Option.isNone_iff_eq_none.mp idle]
  rfl

theorem phase_moved {next : Phase} (now : (q.moved phase).phase = some next) : next = phase := by
  unfold Process.phase Process.moved at now
  cases held : q.login with
  | none =>
    rw [held] at now
    cases now
  | some l =>
    rw [held] at now
    exact (Option.some.inj now).symm

theorem ProcessInv.held (inv : ProcessInv L identity retry w pid q) (recording : q.recording = true) :
    w.holder = some pid := inv.holder .recorded (inv.recording recording) rfl

theorem ProcessInv.not_recording (own : ProcessInv L identity retry w pid q) (held : q.phase = some phase)
    (other : phase ≠ .recorded) : q.recording = false := by
  refine Bool.eq_false_iff.mpr fun busy => other ?_
  have recorded := own.recording busy
  rw [held] at recorded
  exact Option.some.inj recorded

/-- A step of another process leaves this one as it is, if it keeps the lock and the histories
this one relies on. -/
theorem ProcessInv.frame (inv : ProcessInv L identity retry w pid q) (clock : w.clock ≤ x.clock)
    (written : w.written ⊆ x.written) (validations : w.validations ⊆ x.validations)
    (held : w.holder = some pid →
      x.holder = some pid ∧ x.written ⊆ w.written ∧ x.validations ⊆ w.validations)
    (quiet : q.pending.isSome → x.written ⊆ w.written) : ProcessInv L identity retry x pid q where
  sound := by
    refine inv.sound.mono ?_ validations
    exact List.append_subset.mpr ⟨List.subset_append_left _ _, List.subset_append_of_subset_right _ written⟩
  pending := by
    intro p found
    obtain ⟨content, ordered, knows⟩ := inv.pending p found
    exact ⟨content, ordered, fun r member => knows r (quiet (Option.isSome_of_eq_some found) member)⟩
  recording := inv.recording
  newest := by
    intro r member
    have recording : q.recording = true := by
      by_contra idle
      rw [unwritten_of_quiet (Bool.eq_false_iff.mpr idle)] at member
      exact absurd member List.not_mem_nil
    obtain ⟨-, sameWritten, sameTimes⟩ := held (inv.held recording)
    obtain ⟨past, times, refusals⟩ := inv.newest r member
    exact ⟨Nat.le_trans past clock, fun v known => times v (sameTimes known),
      fun k known => refusals k (sameWritten known)⟩
  holder := fun phase now holds => (held (inv.holder phase now holds)).1
  knows := by
    intro now r member
    exact inv.knows now r ((held (inv.holder _ now rfl)).2.1 member)
  expired := by
    intro now r member
    have mine : w.holder = some pid := by
      rcases now with now | now
      · exact inv.holder _ now rfl
      · exact inv.holder _ now rfl
    exact Nat.le_trans (inv.expired now r ((held mine).2.1 member)) clock

theorem ProcessInv.same (inv : ProcessInv L identity retry w pid q) (clock : x.clock = w.clock)
    (written : x.written = w.written) (validations : x.validations = w.validations)
    (holder : w.holder = some pid → x.holder = some pid) : ProcessInv L identity retry x pid q := by
  refine inv.frame (Nat.le_of_eq clock.symm) ?_ ?_ ?_ ?_
  · rw [written]
    exact List.Subset.refl _
  · rw [validations]
    exact List.Subset.refl _
  · rw [written, validations]
    exact fun held => ⟨holder held, List.Subset.refl _, List.Subset.refl _⟩
  · rw [written]
    exact fun _ => List.Subset.refl _

theorem ProcessInv.moved (inv : ProcessInv L identity retry w pid q) (quiet : q.recording = false)
    (holder : phase.holds = true → w.holder = some pid)
    (knows : phase = .refreshed → ∀ r ∈ w.written, Knows q.state.validatedAt q.state.refusal r.receivedAt)
    (expired : phase = .cleared ∨ phase = .sent → ∀ r ∈ w.written, r.receivedAt + retry ≤ w.clock) :
    ProcessInv L identity retry w pid (q.moved phase) where
  sound := inv.sound
  pending := inv.pending
  recording := by
    intro recording
    cases quiet.symm.trans recording
  newest := inv.newest
  holder := by
    intro next now holds
    rw [phase_moved now] at holds
    exact holder holds
  knows := fun now => knows (phase_moved now).symm
  expired := by
    rintro (now | now)
    · exact expired (Or.inl (phase_moved now).symm)
    · exact expired (Or.inr (phase_moved now).symm)

theorem processes_put {k : Nat} {p : Process} (found : (w.put pid q).processes k = some p) :
    k = pid ∧ p = q ∨ k ≠ pid ∧ w.processes k = some p := by
  change (if k = pid then some q else w.processes k) = some p at found
  split_ifs at found with mine
  · exact Or.inl ⟨mine, (Option.some.inj found).symm⟩
  · exact Or.inr ⟨mine, found⟩

/-- A step of one process that changes neither the clock nor a history, and moves the lock file
at most when no other process has it. -/
theorem Inv.relock {holder : Option Nat} (inv : Inv L identity retry w)
    (others : ∀ k, k ≠ pid → w.holder = some k → holder = some k)
    (own : ProcessInv L identity retry { w with holder := holder } pid q) :
    Inv L identity retry { w.put pid q with holder := holder } := by
  refine ⟨fun k p found => ?_, inv.file, inv.kept, inv.history.refusals, inv.history.times, inv.history.apart,
    inv.history.distinct, inv.history.spent⟩
  rcases processes_put found with ⟨rfl, rfl⟩ | ⟨differs, found⟩
  · exact own.same rfl rfl rfl fun held => held
  · exact (inv.processes k p found).same rfl rfl rfl (others k differs)

theorem Inv.put (inv : Inv L identity retry w) (own : ProcessInv L identity retry w pid q) :
    Inv L identity retry (w.put pid q) := inv.relock (fun _ _ held => held) own

theorem released_other {k : Nat} (differs : k ≠ pid) (held : w.holder = some k) :
    (w.released pid).holder = some k := by
  change w.holder.filter _ = some k
  rw [held, Option.filter_some, if_pos (decide_eq_true differs)]

theorem Inv.crash (inv : Inv L identity retry w) :
    Inv L identity retry
      { w.released pid with processes := fun k => if k = pid then none else w.processes k } := by
  refine ⟨fun k p found => ?_, inv.file, inv.kept, inv.history.refusals, inv.history.times, inv.history.apart,
    inv.history.distinct, inv.history.spent⟩
  change (if k = pid then none else w.processes k) = some p at found
  split_ifs at found with mine
  exact (inv.processes k p found).same rfl rfl rfl (released_other mine)

theorem Inv.tick (inv : Inv L identity retry w) (duration : Nat) :
    Inv L identity retry { w with clock := w.clock + duration } := by
  have later : w.clock ≤ w.clock + duration := Nat.le_add_right _ _
  refine ⟨fun k p found => ?_, inv.file, inv.kept, ⟨?_, ?_, inv.history.apart, inv.history.distinct, ?_⟩⟩
  · exact (inv.processes k p found).frame later (List.Subset.refl _) (List.Subset.refl _)
      (fun held => ⟨held, List.Subset.refl _, List.Subset.refl _⟩) fun _ => List.Subset.refl _
  · exact fun r member => Nat.le_trans (inv.history.refusals r member) later
  · exact fun v member => Nat.le_trans (inv.history.times v member) later
  · exact fun r member v known after => Nat.le_trans (inv.history.spent r member v known after) later

theorem ProcessInv.sound_idle (inv : ProcessInv L identity retry w pid q) (quiet : q.recording = false) :
    Sound L identity w.written w.validations q.state := by
  have sound := inv.sound
  rw [unwritten_of_quiet quiet] at sound
  exact sound

/-- A merge of the file shows a process every refusal that was ever written. -/
theorem Inv.news (inv : Inv L identity retry w) {s : State} (sound : Sound L identity w.written w.validations s)
    {r : Refusal} (member : r ∈ w.written) :
    Knows (s.merge L identity now w.file).validatedAt (s.merge L identity now w.file).refusal r.receivedAt := by
  obtain ⟨p, found, knows⟩ := inv.kept r member
  exact (sound.merge inv.file now).2.1 p _ found knows

/-- An idle process takes a new state; what it knew about the histories it still knows. -/
theorem ProcessInv.restate (inv : ProcessInv L identity retry w pid q) (idle : q.pending.isNone = true)
    (sound : Sound L identity w.written w.validations s)
    (knows : ∀ t, Knows q.state.validatedAt q.state.refusal t → Knows s.validatedAt s.refusal t) :
    ProcessInv L identity retry w pid { q with state := s } where
  sound := sound.mono (List.subset_append_right _ _) (List.Subset.refl _)
  pending := by
    intro p found
    rw [Option.isNone_iff_eq_none.mp idle] at found
    cases found
  recording := inv.recording
  newest := by
    intro r member
    rw [unwritten_of_quiet (q := { q with state := s }) (recording_of_idle idle)] at member
    exact absurd member List.not_mem_nil
  holder := inv.holder
  knows := fun now r member => knows _ (inv.knows now r member)
  expired := inv.expired

/-- A `mark_stale` has merged the file and is about to rename. -/
theorem ProcessInv.stale (inv : ProcessInv L identity retry w pid q)
    (sound : Sound L identity w.written w.validations s) (ordered : Ordered s.validatedAt s.refusal)
    (knows : ∀ r ∈ w.written, Knows s.validatedAt s.refusal r.receivedAt) :
    ProcessInv L identity retry w pid (q.record identity s false) where
  sound := sound.mono (List.subset_append_right _ _) (List.Subset.refl _)
  pending := by
    rintro p ⟨⟩
    exact ⟨rfl, ordered, knows⟩
  recording := nofun
  newest := fun r member => absurd member List.not_mem_nil
  holder := inv.holder
  knows := fun _ => knows
  expired := inv.expired

/-- The holder of the lock file has an outcome. -/
theorem Inv.outcome {clock : Instant} (inv : Inv L identity retry w) (mine : w.holder = some pid)
    (later : w.clock ≤ clock) (grow : w.validations ⊆ more)
    (own : ProcessInv L identity retry { w with clock := clock, validations := more } pid q)
    (history : History retry { w with clock := clock, validations := more }) :
    Inv L identity retry { w.put pid q with clock := clock, validations := more } := by
  refine ⟨fun k p found => ?_, fun p found => (inv.file p found).mono (List.Subset.refl _) grow, inv.kept,
    history.refusals, history.times, history.apart, history.distinct, history.spent⟩
  rcases processes_put found with ⟨rfl, rfl⟩ | ⟨differs, found⟩
  · exact own.same rfl rfl rfl fun held => held
  · have other := inv.processes k p found
    refine other.frame later (List.Subset.refl _) grow (fun held => ?_) fun _ => List.Subset.refl _
    rw [mine] at held
    exact absurd (Option.some.inj held).symm differs

/-- Nothing in the file is later than the clock. -/
theorem Inv.file_past (inv : Inv L identity retry w) (p : Persisted) (found : w.file = some p) :
    Events.FileInv w.clock p where
  ordered := (inv.file p found).ordered
  past := ⟨fun v known => inv.history.times v ((inv.file p found).time v known),
    fun r known => inv.history.refusals r ((inv.file p found).refusal r known)⟩

theorem phase_recorded (held : q.phase = some phase) : (q.moved .recorded).phase = some .recorded := by
  unfold Process.phase Process.moved
  obtain ⟨l, found, -⟩ := Option.map_eq_some_iff.mp held
  rw [found]
  rfl

/-- The login task records its outcome `s`. -/
theorem ProcessInv.recorded {attempts : Nat} (held : q.phase = some phase) (mine : w.holder = some pid)
    (sound : Sound L identity (s.refusal.toList ++ w.written) w.validations s)
    (ordered : Ordered s.validatedAt s.refusal)
    (knows : ∀ r ∈ w.written, Knows s.validatedAt s.refusal r.receivedAt)
    (newest : ∀ r, s.refusal = some r → r.receivedAt ≤ w.clock ∧ (∀ v ∈ w.validations, v < r.receivedAt) ∧
      ∀ k ∈ w.written, k.receivedAt < r.receivedAt) :
    ProcessInv L identity retry w pid ({ q.moved .recorded with attempts := attempts }.record identity s true) where
  sound := sound
  pending := by
    rintro p ⟨⟩
    exact ⟨rfl, ordered, knows⟩
  recording := fun _ => phase_recorded held
  newest := fun r member => newest r (Option.mem_toList.mp member)
  holder := fun _ _ _ => mine
  knows := fun now => nomatch phase_moved now
  expired := fun now => nomatch now.imp phase_moved phase_moved

theorem Inv.accepted {account : SdkAccount} {attempts : Nat} (inv : Inv L identity retry w)
    (own : ProcessInv L identity retry w pid q) (sent : q.phase = some .sent)
    (fits : Fits L identity account.idToken account.mid) :
    Inv L identity retry
      { w.put pid ({ q.moved .recorded with attempts := attempts }.record identity
          ((q.state.validated account (w.clock + 1)).merge L identity (w.clock + 1) w.file) true) with
        clock := w.clock + 1
        validations := (w.clock + 1) :: w.validations } := by
  have mine := own.holder .sent sent rfl
  have after := lt_later w.clock 0
  have expired := own.expired (Or.inr sent)
  have before : ∀ r ∈ w.written, r.receivedAt < w.clock + 1 :=
    fun r member => Nat.lt_of_le_of_lt (inv.history.refusals r member) after
  have unchanged : (q.state.validated account (w.clock + 1)).merge L identity (w.clock + 1) w.file =
      q.state.validated account (w.clock + 1) := Events.merge_after_event after inv.file_past (Or.inl rfl)
  rw [unchanged]
  refine inv.outcome mine (Nat.le_of_lt after) (List.subset_cons_self _ _)
    (ProcessInv.recorded sent mine ⟨fun _ => rfl, ?_, ?_, nofun⟩ nofun ?_ nofun)
    ⟨?_, ?_, ?_, inv.history.distinct, ?_⟩
  · rintro a ⟨⟩
    exact fits
  · rintro v ⟨⟩
    exact List.mem_cons_self
  · exact fun r member => Or.inl ⟨_, rfl, Nat.le_of_lt (before r member)⟩
  · exact fun r member => Nat.le_of_lt (before r member)
  · intro v known
    rcases List.mem_cons.mp known with rfl | known
    · exact Nat.le_refl _
    · exact Nat.le_trans (inv.history.times v known) (Nat.le_of_lt after)
  · intro r member v known
    rcases List.mem_cons.mp known with rfl | known
    · exact (Nat.ne_of_lt (before r member)).symm
    · exact inv.history.apart r member v known
  · intro r member v known _
    exact Nat.le_trans (expired r member) (Nat.le_of_lt after)

theorem Inv.refused {code : Int} {attempts : Nat} (inv : Inv L identity retry w)
    (own : ProcessInv L identity retry w pid q) (idle : q.pending.isNone = true) (sent : q.phase = some .sent) :
    Inv L identity retry
      { w.put pid ({ q.moved .recorded with attempts := attempts }.record identity
          ((q.state.refused code (w.clock + 1)).merge L identity (w.clock + 1) w.file) true) with
        clock := w.clock + 1 } := by
  have mine := own.holder .sent sent rfl
  have after := lt_later w.clock 0
  have sound := own.sound_idle (recording_of_idle idle)
  have times : ∀ v ∈ w.validations, v < w.clock + 1 :=
    fun v known => Nat.lt_of_le_of_lt (inv.history.times v known) after
  have refusals : ∀ r ∈ w.written, r.receivedAt < w.clock + 1 :=
    fun r member => Nat.lt_of_le_of_lt (inv.history.refusals r member) after
  have unchanged : (q.state.refused code (w.clock + 1)).merge L identity (w.clock + 1) w.file =
      q.state.refused code (w.clock + 1) := Events.merge_after_event after inv.file_past (Or.inr ⟨code, rfl⟩)
  rw [unchanged]
  refine inv.outcome mine (Nat.le_of_lt after) (List.Subset.refl _)
    (ProcessInv.recorded sent mine ⟨nofun, nofun, sound.time, ?_⟩ ?_ ?_ ?_) (inv.tick 1).history
  · rintro r ⟨⟩
    exact List.mem_cons_self
  · rintro v r known ⟨⟩
    exact times v (sound.time v known)
  · exact fun r member => Or.inr ⟨_, rfl, Nat.le_of_lt (refusals r member)⟩
  · rintro r ⟨⟩
    exact ⟨Nat.le_refl _, times, refusals⟩

theorem unwritten_alone {r k : Refusal} (left : r ∈ q.unwritten) (right : k ∈ q.unwritten) : k = r := by
  unfold Process.unwritten at left right
  split_ifs at left right
  · have one := Option.mem_toList.mp left
    have two := Option.mem_toList.mp right
    exact Option.some.inj (two.symm.trans one)
  · exact absurd left List.not_mem_nil

/-- The refusals of the file after the rename of a pending write. -/
theorem ProcessInv.renamed {p : Write} (own : ProcessInv L identity retry w pid q) (found : q.pending = some p)
    (r : Refusal) : r ∈ p.content.refusal.toList ++ w.written ↔ r ∈ q.unwritten ++ w.written := by
  obtain ⟨content, -, -⟩ := own.pending p found
  rw [content]
  constructor
  · intro member
    rcases List.mem_append.mp member with new | old
    · exact own.sound.refusal r (Option.mem_toList.mp new)
    · exact List.mem_append_right _ old
  · intro member
    rcases List.mem_append.mp member with new | old
    · unfold Process.unwritten at new
      split_ifs at new
      · exact List.mem_append_left _ new
      · exact absurd new List.not_mem_nil
    · exact List.mem_append_right _ old

/-- A new refusal is later than everything in the history. -/
theorem History.extend (history : History retry w) (own : ProcessInv L identity retry w pid q)
    (same : ∀ r, r ∈ wider → r ∈ q.unwritten ++ w.written) : History retry { w with written := wider } := by
  have known : ∀ r ∈ wider, r ∈ q.unwritten ∨ r ∈ w.written := fun r member => List.mem_append.mp (same r member)
  refine ⟨?_, history.times, ?_, ?_, ?_⟩
  · intro r member
    rcases known r member with new | old
    · exact (own.newest r new).1
    · exact history.refusals r old
  · intro r member v time
    rcases known r member with new | old
    · exact Nat.ne_of_lt ((own.newest r new).2.1 v time)
    · exact history.apart r old v time
  · intro r member k other meet
    rcases known r member with new | old <;> rcases known k other with newer | older
    · exact unwritten_alone new newer
    · exact absurd meet (Nat.ne_of_lt ((own.newest r new).2.2 k older))
    · exact absurd meet (Nat.ne_of_lt ((own.newest k newer).2.2 r old)).symm
    · exact history.distinct r old k older meet
  · intro r member v time late
    rcases known r member with new | old
    · exact absurd late (Nat.not_le_of_lt ((own.newest r new).2.1 v time))
    · exact history.spent r old v time late

/-- A rename puts into the file what the process knew when it read it. -/
theorem Inv.rename {p : Write} (inv : Inv L identity retry w) (compact : Compact L identity)
    (own : ProcessInv L identity retry w pid q) (found : q.pending = some p)
    (permitted : p.outcome = true → p.content.refusal.isSome →
      ∀ k o, k ≠ pid → w.processes k = some o → o.pending = none) :
    Inv L identity retry
      { w.put pid { q with pending := none } with
        file := some p.content
        written := p.content.refusal.toList ++ w.written } := by
  have renamed := own.renamed found
  have history := inv.history.extend own fun r => (renamed r).mp
  obtain ⟨content, ordered, knows⟩ := own.pending p found
  have outcome : q.recording = p.outcome := by
    unfold Process.recording
    rw [found]
    rfl
  have quiet : q.recording = false → p.content.refusal.toList ++ w.written ⊆ w.written := by
    intro idle r member
    have kept := (renamed r).mp member
    rw [unwritten_of_quiet idle] at kept
    exact kept
  have sound : Sound L identity (p.content.refusal.toList ++ w.written) w.validations q.state :=
    own.sound.mono (fun r member => (renamed r).mpr member) (List.Subset.refl _)
  have self : ProcessInv L identity retry { w with written := p.content.refusal.toList ++ w.written } pid
      { q with pending := none } := by
    refine ⟨sound, nofun, nofun, fun r member => absurd member List.not_mem_nil, own.holder, ?_, ?_⟩
    · intro now r member
      exact own.knows now r (quiet (own.not_recording now nofun) member)
    · intro now r member
      have idle : q.recording = false := by
        rcases now with now | now
        · exact own.not_recording now nofun
        · exact own.not_recording now nofun
      exact own.expired now r (quiet idle member)
  refine ⟨fun k o other => ?_, ?_, fun r member => ⟨p.content, rfl, ?_⟩, history.refusals, history.times,
    history.apart, history.distinct, history.spent⟩
  · rcases processes_put other with ⟨rfl, rfl⟩ | ⟨differs, other⟩
    · exact self.same rfl rfl rfl fun held => held
    · refine (inv.processes k o other).frame (Nat.le_refl _) (List.subset_append_right _ _) (List.Subset.refl _) ?_ ?_
      · intro held
        refine ⟨held, quiet ?_, List.Subset.refl _⟩
        refine Bool.eq_false_iff.mpr fun busy => ?_
        exact differs (Option.some.inj (held.symm.trans (own.held busy)))
      · intro writing
        cases refusal : p.content.refusal with
        | none => exact List.Subset.refl _
        | some r =>
          rw [← refusal]
          refine quiet (Bool.eq_false_iff.mpr fun busy => ?_)
          rw [permitted (outcome.symm.trans busy) (Option.isSome_of_eq_some refusal) k o differs other] at writing
          cases writing
  · rintro _ ⟨⟩
    rw [content] at sound ⊢
    exact sound.persisted compact ordered
  · rcases List.mem_append.mp member with new | old
    · exact Or.inr ⟨r, Option.mem_toList.mp new, Nat.le_refl _⟩
    · rw [content]
      exact knows r old

/-- The check under the lock file: every refusal ever written is past its retry time. -/
theorem ProcessInv.cleared {caller : Caller} (own : ProcessInv L identity retry w pid q) (history : History retry w)
    (idle : q.pending.isNone = true) (now : q.phase = some .refreshed)
    (clear : q.clear retry interval w.clock caller = true) {r : Refusal} (member : r ∈ w.written) :
    r.receivedAt + retry ≤ w.clock := by
  have sound := own.sound_idle (recording_of_idle idle)
  rcases own.knows now r member with ⟨v, known, late⟩ | ⟨k, known, late⟩
  · exact history.spent r member v (sound.time v known) late
  · cases caller with
    | auth =>
      simp only [Process.clear, State.refusalAt, known, Option.filter_some] at clear
      split_ifs at clear with inForce
      · cases clear
      · have retried : k.receivedAt + retry ≤ w.clock := Nat.le_of_not_lt fun early => inForce (decide_eq_true early)
        exact Nat.le_trans (Nat.add_le_add_right late retry) retried
    | keepalive =>
      simp only [Process.clear, State.keepaliveDue, known, Option.isNone_some, Bool.false_and] at clear
      cases clear

/-- No other process is between reading the file and its rename when the rename of a refusal
happens, and what the SDK returns fits into a state file. -/
def allowed (L : Library) (identity : Identity) (w : World) : Label → Prop
  | .accepted _ account => Fits L identity account.idToken account.mid
  | .rename pid => ∀ q p, w.processes pid = some q → q.pending = some p → p.outcome = true →
      p.content.refusal.isSome → ∀ k o, k ≠ pid → w.processes k = some o → o.pending = none
  | _ => True

theorem Inv.start (inv : Inv L identity retry w) :
    Inv L identity retry (w.put pid { state := fresh L identity w.clock w.file }) := by
  have empty : Sound L identity w.written w.validations {} := ⟨nofun, nofun, nofun, nofun⟩
  have sound := (empty.merge inv.file w.clock).1
  refine inv.put ⟨?_, nofun, nofun, fun r member => absurd member List.not_mem_nil, nofun, nofun, ?_⟩
  · exact sound
  · rintro (now | now) <;> cases now

/-- The tasks that wait for the login mutex and the count of logins are of no concern. -/
theorem ProcessInv.recount {requests : List Request} {attempts : Nat} (own : ProcessInv L identity retry w pid q) :
    ProcessInv L identity retry w pid { q with requests := requests, attempts := attempts } :=
  ⟨own.sound, own.pending, own.recording, own.newest, own.holder, own.knows, own.expired⟩

/-- A task takes the login mutex; it does not have the lock file yet. -/
theorem Inv.entered {requests : List Request} {request : Request} (inv : Inv L identity retry w)
    (own : ProcessInv L identity retry w pid q) (free : q.login.isNone = true) :
    Inv L identity retry
      (w.put pid { q with requests := requests, login := some { request := request, phase := .waiting } }) := by
  have idle : q.recording = false := by
    refine Bool.eq_false_iff.mpr fun busy => ?_
    have phase := own.recording busy
    rw [Process.phase, Option.isNone_iff_eq_none.mp free] at phase
    cases phase
  refine inv.put ⟨own.sound, own.pending, fun busy => ?_, own.newest, ?_, nofun, ?_⟩
  · cases idle.symm.trans busy
  · rintro _ ⟨⟩ ⟨⟩
  · rintro (now | now) <;> cases now

theorem Inv.locked (inv : Inv L identity retry w) (own : ProcessInv L identity retry w pid q)
    (waiting : q.phase = some .waiting) (free : w.holder = none) :
    Inv L identity retry { w.put pid (q.moved .locked) with holder := some pid } := by
  have idle := own.not_recording waiting nofun
  have held := own.same (x := { w with holder := some pid }) rfl rfl rfl fun _ => rfl
  refine inv.relock (fun k _ taken => ?_) (held.moved idle (fun _ => rfl) nofun nofun)
  cases free.symm.trans taken

/-- Under the lock file the merge shows the task every refusal there was. -/
theorem Inv.refreshed (inv : Inv L identity retry w) (own : ProcessInv L identity retry w pid q)
    (idle : q.pending.isNone = true) (held : q.phase = some .locked) :
    Inv L identity retry
      (w.put pid { q.moved .refreshed with state := q.state.merge L identity w.clock w.file }) := by
  have quiet := recording_of_idle idle
  have sound := own.sound_idle quiet
  obtain ⟨merged, -, remembers, -⟩ := sound.merge inv.file w.clock
  have restated := own.restate idle merged remembers
  refine inv.put (restated.moved quiet (fun _ => own.holder _ held rfl) ?_ nofun)
  exact fun _ r member => inv.news sound member

theorem Inv.checked (inv : Inv L identity retry w) (own : ProcessInv L identity retry w pid q)
    (idle : q.pending.isNone = true) (held : q.phase = some .refreshed)
    (passes : q.login.any (fun l => q.clear retry interval w.clock l.request.caller) = true) :
    Inv L identity retry (w.put pid (q.moved .cleared)) := by
  obtain ⟨l, -, clear⟩ := (Option.any_eq_true _ _).mp passes
  refine inv.put (own.moved (recording_of_idle idle) (fun _ => own.holder _ held rfl) nofun ?_)
  exact fun _ r member => own.cleared inv.history idle held clear member

theorem Inv.sent (inv : Inv L identity retry w) (own : ProcessInv L identity retry w pid q)
    (idle : q.pending.isNone = true) (held : q.phase = some .cleared) :
    Inv L identity retry (w.put pid (q.moved .sent)) := by
  refine inv.put (own.moved (recording_of_idle idle) (fun _ => own.holder _ held rfl) nofun ?_)
  exact fun _ => own.expired (Or.inl held)

theorem Inv.failed {attempts : Nat} (inv : Inv L identity retry w) (own : ProcessInv L identity retry w pid q)
    (held : q.phase = some .sent) :
    Inv L identity retry (w.put pid { q.moved .recorded with attempts := attempts }) := by
  have idle := own.not_recording held nofun
  have moved : ProcessInv L identity retry w pid (q.moved .recorded) :=
    own.moved idle (fun _ => own.holder _ held rfl) nofun nofun
  exact inv.put moved.recount

theorem Inv.left {holder : Option Nat} (inv : Inv L identity retry w) (own : ProcessInv L identity retry w pid q)
    (idle : ¬ q.recording = true) (others : ∀ k, k ≠ pid → w.holder = some k → holder = some k) :
    Inv L identity retry { w.put pid { q with login := none } with holder := holder } := by
  refine inv.relock others ⟨own.sound, own.pending, fun busy => absurd busy idle, own.newest, nofun, nofun, ?_⟩
  rintro (now | now) <;> cases now

theorem Inv.markedStale (inv : Inv L identity retry w) (own : ProcessInv L identity retry w pid q)
    (idle : q.pending.isNone = true) (present : q.state.account.isSome = true) :
    Inv L identity retry (w.put pid (q.record identity
      (({ q.state with stale := true } : State).merge L identity w.clock w.file) false)) := by
  have sound := own.sound_idle (recording_of_idle idle)
  have marked : Sound L identity w.written w.validations { q.state with stale := true } :=
    ⟨sound.exclusive, sound.fits, sound.time, sound.refusal⟩
  obtain ⟨merged, -, -, ordered⟩ := marked.merge inv.file w.clock
  exact inv.put (own.stale merged (ordered (sound.exclusive present)) fun r member => inv.news marked member)

theorem step_inv {l : Label} (compact : Compact L identity) (inv : Inv L identity retry w)
    (permitted : allowed L identity w l) (taken : step L identity retry interval w l = some x) :
    Inv L identity retry x := by
  cases l with
  | tick duration =>
    cases taken
    exact inv.tick duration
  | start pid =>
    simp only [step] at taken
    split_ifs at taken
    cases taken
    exact inv.start
  | crash pid =>
    obtain ⟨q, -, taken⟩ := Option.bind_eq_some_iff.mp taken
    cases taken
    exact inv.crash
  | arrive pid caller =>
    obtain ⟨q, found, taken⟩ := Option.bind_eq_some_iff.mp taken
    simp only [act] at taken
    split_ifs at taken
    cases taken
    exact inv.put (inv.processes pid q found).recount
  | queue pid index =>
    obtain ⟨q, found, taken⟩ := Option.bind_eq_some_iff.mp taken
    obtain ⟨request, -, taken⟩ := Option.bind_eq_some_iff.mp taken
    split_ifs at taken
    cases taken
    exact inv.put (inv.processes pid q found).recount
  | abandon pid index =>
    obtain ⟨q, found, taken⟩ := Option.bind_eq_some_iff.mp taken
    cases taken
    exact inv.put (inv.processes pid q found).recount
  | enter pid index =>
    obtain ⟨q, found, taken⟩ := Option.bind_eq_some_iff.mp taken
    obtain ⟨request, -, taken⟩ := Option.bind_eq_some_iff.mp taken
    split_ifs at taken with free
    cases taken
    exact inv.entered (inv.processes pid q found) free.1
  | lock pid =>
    obtain ⟨q, found, taken⟩ := Option.bind_eq_some_iff.mp taken
    simp only [act] at taken
    split_ifs at taken with free
    cases taken
    exact inv.locked (inv.processes pid q found) free.1 free.2
  | refresh pid =>
    obtain ⟨q, found, taken⟩ := Option.bind_eq_some_iff.mp taken
    simp only [act] at taken
    split_ifs at taken with ready
    cases taken
    exact inv.refreshed (inv.processes pid q found) ready.1 ready.2
  | check pid =>
    obtain ⟨q, found, taken⟩ := Option.bind_eq_some_iff.mp taken
    simp only [act] at taken
    split_ifs at taken with ready
    cases taken
    exact inv.checked (inv.processes pid q found) ready.1 ready.2.1 ready.2.2
  | send pid =>
    obtain ⟨q, found, taken⟩ := Option.bind_eq_some_iff.mp taken
    simp only [act] at taken
    split_ifs at taken with ready
    cases taken
    exact inv.sent (inv.processes pid q found) ready.1 ready.2.1
  | accepted pid account =>
    obtain ⟨q, found, taken⟩ := Option.bind_eq_some_iff.mp taken
    simp only [act] at taken
    split_ifs at taken with ready
    cases taken
    exact inv.accepted (inv.processes pid q found) ready.2 permitted
  | refused pid code =>
    obtain ⟨q, found, taken⟩ := Option.bind_eq_some_iff.mp taken
    simp only [act] at taken
    split_ifs at taken with ready
    cases taken
    exact inv.refused (inv.processes pid q found) ready.1 ready.2
  | failed pid =>
    obtain ⟨q, found, taken⟩ := Option.bind_eq_some_iff.mp taken
    simp only [act] at taken
    split_ifs at taken with sent
    cases taken
    exact inv.failed (inv.processes pid q found) sent
  | leave pid =>
    obtain ⟨q, found, taken⟩ := Option.bind_eq_some_iff.mp taken
    obtain ⟨l, -, taken⟩ := Option.bind_eq_some_iff.mp taken
    split_ifs at taken with busy holds
    · cases taken
      exact inv.left (inv.processes pid q found) busy fun k differs held => released_other differs held
    · cases taken
      exact inv.left (inv.processes pid q found) busy fun _ _ held => held
  | markStale pid generation =>
    obtain ⟨q, found, taken⟩ := Option.bind_eq_some_iff.mp taken
    have own := inv.processes pid q found
    simp only [act] at taken
    split_ifs at taken with idle concerned present
    · cases taken
      exact inv.markedStale own idle present
    · cases taken
      have sound := own.sound_idle (recording_of_idle idle)
      exact inv.put (own.restate idle ⟨sound.exclusive, sound.fits, sound.time, sound.refusal⟩ fun _ knows => knows)
    · cases taken
      exact inv
  | rename pid =>
    obtain ⟨q, found, taken⟩ := Option.bind_eq_some_iff.mp taken
    obtain ⟨p, pending, rfl⟩ := Option.map_eq_some_iff.mp taken
    exact inv.rename compact (inv.processes pid q found) pending (permitted q p found pending)

theorem Inv.empty : Inv L identity retry {} := by
  refine ⟨fun pid q found => ?_, fun p found => ?_, ?_, ⟨?_, ?_, ?_, ?_, ?_⟩⟩
  · cases found
  · cases found
  all_goals exact fun _ member => absurd member List.not_mem_nil

/-- The file still has the refusal, or an event later than it. -/
def Keeps (p : Persisted) (r : Refusal) : Prop :=
  p.refusal = some r ∨ (∃ k, p.refusal = some k ∧ r.receivedAt < k.receivedAt) ∨
    ∃ v, p.validatedAt = some v ∧ r.receivedAt < v

/-- In every run whose steps meet the condition, a refusal that was written stays in the file until
an event later than it, and every `cache.login` is sent after its retry time. -/
theorem refusal_never_lost {w : World} (compact : Compact L identity)
    (reach : Run.Reach (step L identity retry interval) (allowed L identity) {} w) :
    (∀ r ∈ w.written, ∃ p, w.file = some p ∧ Keeps p r) ∧
      ∀ pid x, step L identity retry interval w (.send pid) = some x →
        ∀ r ∈ w.written, r.receivedAt + retry ≤ w.clock := by
  have inv : Inv L identity retry w :=
    reach.invariant Inv.empty fun _ _ _ inv permitted taken => step_inv compact inv permitted taken
  refine ⟨fun r member => ?_, fun pid x taken r member => ?_⟩
  · obtain ⟨p, found, knows⟩ := inv.kept r member
    have sound := inv.file p found
    refine ⟨p, found, ?_⟩
    rcases knows with ⟨v, known, late⟩ | ⟨k, known, late⟩
    · have apart := inv.history.apart r member v (sound.time v known)
      exact Or.inr (Or.inr ⟨v, known, Nat.lt_of_le_of_ne late apart.symm⟩)
    · rcases Nat.eq_or_lt_of_le late with meet | later
      · have same := inv.history.distinct r member k (sound.refusal k known) meet.symm
        exact Or.inl (same ▸ known)
      · exact Or.inr (Or.inl ⟨k, known, later⟩)
  · obtain ⟨q, found, taken⟩ := Option.bind_eq_some_iff.mp taken
    simp only [act] at taken
    split_ifs at taken with ready
    exact (inv.processes pid q found).expired (Or.inl ready.2.1) r member

end Shared

namespace Sample

/-- The labels of one `cache.login` up to its answer. -/
def attempt (pid : Nat) : List Shared.Label :=
  [.arrive pid .auth, .queue pid 0, .enter pid 0, .lock pid, .refresh pid, .check pid, .send pid]

/-- Process 0 logs in and process 1 reads its session. After the token has expired process 1 sends a
`cache.login`. Process 0 marks its session stale and has read the file when the refusal of
process 1 is written; its own rename then removes the refusal, and it is about to send. -/
def crossed : List Shared.Label :=
  [.start 0] ++ attempt 0 ++ [.accepted 0 account, .rename 0, .leave 0, .start 1, .tick (hours 2)] ++
    attempt 1 ++ [.markStale 0 1, .refused 1 1, .rename 1, .leave 1, .rename 0] ++ (attempt 0).dropLast

def staleFile : Persisted := { validatedFile with idToken := "", validatedAt := some 1 }

/-- Process 0 is refused. -/
def refusedFirst : List Shared.Label := [.start 0] ++ attempt 0 ++ [.refused 0 1]

/-- A day later process 1 starts and sends a `cache.login`. -/
def dayLater : List Shared.Label := [.leave 0, .start 1, .tick (fromSecs 86400)] ++ attempt 1

def laterFile : Persisted := (State.validated account (fromSecs 86400 + 2) {}).persisted owner

end Sample

namespace Shared

theorem refusal_lost :
    ∃ w x p r, Run.Reach (step Sample.library Sample.owner (fromSecs 86400) (fromSecs 1728000)) (fun _ _ => True) {} w ∧
      r ∈ w.written ∧ w.file = some p ∧ ¬ Keeps p r ∧
      step Sample.library Sample.owner (fromSecs 86400) (fromSecs 1728000) w (.send 0) = some x ∧
      w.clock < r.receivedAt + fromSecs 86400 := by
  have runs : (Run.exec (step Sample.library Sample.owner (fromSecs 86400) (fromSecs 1728000)) {} Sample.crossed).map
      (fun w => (w.clock, w.written, w.file)) =
      some (Sample.hours 2 + 2, [{ code := 1, receivedAt := Sample.hours 2 + 2 }],
        some Sample.staleFile) := by
    decide +kernel
  have sends : ((Run.exec (step Sample.library Sample.owner (fromSecs 86400) (fromSecs 1728000)) {}
      Sample.crossed).bind fun w =>
        step Sample.library Sample.owner (fromSecs 86400) (fromSecs 1728000) w (.send 0)).isSome = true := by
    decide +kernel
  obtain ⟨w, run, shape⟩ := Option.map_eq_some_iff.mp runs
  obtain ⟨clock, shape⟩ := Prod.mk.inj shape
  obtain ⟨written, file⟩ := Prod.mk.inj shape
  rw [run] at sends
  obtain ⟨x, taken⟩ := Option.isSome_iff_exists.mp sends
  refine ⟨w, x, _, { code := 1, receivedAt := Sample.hours 2 + 2 }, Run.reach_of_exec run, ?_, file, ?_, taken, ?_⟩
  · rw [written]
    exact List.mem_singleton_self _
  · rintro (held | ⟨k, held, -⟩ | ⟨v, held, late⟩)
    · cases held
    · cases held
    · cases held
      exact absurd late (by decide)
  · rw [clock]
    decide

/-- The steps that the condition says nothing about. -/
def Label.free : Label → Bool
  | .accepted _ _ => false
  | .rename _ => false
  | _ => true

theorem allowed_of_free {L : Library} {identity : Identity} {w : World} {l : Label} (free : l.free = true) :
    allowed L identity w l := by
  cases l with
  | accepted => cases free
  | rename => cases free
  | _ => trivial

/-- Process 0 is refused and writes that; a day later process 1 is accepted and writes over it. -/
theorem refusal_never_lost_followed :
    ∃ w r p, Run.Reach (step Sample.library Sample.owner (fromSecs 86400) (fromSecs 1728000))
        (allowed Sample.library Sample.owner) {} w ∧ r ∈ w.written ∧ w.file = some p ∧ p.refusal = none ∧ Keeps p r := by
  let next := step Sample.library Sample.owner (fromSecs 86400) (fromSecs 1728000)
  have runs : ((Run.exec next {} Sample.refusedFirst).bind fun w => (next w (.rename 0)).bind fun w =>
      (Run.exec next w Sample.dayLater).bind fun w => next w (.accepted 1 Sample.account)).map
        (fun w => (w.written, ((w.processes 1).bind (·.pending)).map (·.content))) =
      some ([{ code := 1, receivedAt := 1 }], some Sample.laterFile) := by decide +kernel
  obtain ⟨v, ran, shape⟩ := Option.map_eq_some_iff.mp runs
  obtain ⟨w₁, first, ran⟩ := Option.bind_eq_some_iff.mp ran
  obtain ⟨w₂, renamed, ran⟩ := Option.bind_eq_some_iff.mp ran
  obtain ⟨w₃, later, accepted⟩ := Option.bind_eq_some_iff.mp ran
  have free (labels : List Label) (all : labels.all Label.free = true) :
      ∀ l ∈ labels, ∀ s, allowed Sample.library Sample.owner s l :=
    fun l member s => allowed_of_free (List.all_eq_true.mp all l member)
  have alone : allowed Sample.library Sample.owner w₁ (.rename 0) := by
    intro q p _ _ _ _ k o differs found
    cases first
    simp only [World.put, differs, if_false] at found
    cases found
  have reach := ((Run.Reach.start.exec_allowed first (free _ rfl)).next alone renamed).exec_allowed later (free _ rfl)
  have fits : allowed Sample.library Sample.owner w₃ (.accepted 1 Sample.account) := by
    intro p _ _ token _
    change 200 + p.idToken.utf8ByteSize ≤ 16384
    rw [token]
    decide +kernel
  have written : v.written = [{ code := 1, receivedAt := 1 }] := congrArg (·.1) shape
  obtain ⟨pending, found, content⟩ := Option.map_eq_some_iff.mp (congrArg (·.2) shape)
  obtain ⟨q, there, waits⟩ := Option.bind_eq_some_iff.mp found
  have taken : next v (.rename 1) = some
      { v.put 1 { q with pending := none } with
        file := some pending.content
        written := pending.content.refusal.toList ++ v.written } := by
    change ((v.processes 1).bind fun q => _) = _
    rw [there]
    change Option.map _ q.pending = _
    rw [waits]
    rfl
  have permitted : allowed Sample.library Sample.owner v (.rename 1) := by
    intro o p known own _ refuses
    cases known.symm.trans there
    cases own.symm.trans waits
    rw [content] at refuses
    cases refuses
  have final := (reach.next fits accepted).next permitted taken
  have old : ({ code := 1, receivedAt := 1 } : Refusal) ∈ pending.content.refusal.toList ++ v.written :=
    List.mem_append_right _ (written ▸ List.mem_singleton_self _)
  obtain ⟨p, stored, keeps⟩ := (refusal_never_lost Restart.compact_sample final).1 _ old
  cases stored
  exact ⟨_, _, _, final, old, rfl, content ▸ rfl, keeps⟩

end Shared

end SiriusProxy.Sdk
