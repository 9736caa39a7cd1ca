import SiriusProxy.Lib.Run
import SiriusProxy.Sdk.Session

namespace SiriusProxy.Sdk

/-- The refusal, if there is one, came after the last successful `cache.login`. -/
def Ordered (validatedAt : Option Instant) (refusal : Option Refusal) : Prop :=
  ∀ v r, validatedAt = some v → refusal = some r → v < r.receivedAt

/-- No event is later than `clock`. -/
def Past (clock : Instant) (validatedAt : Option Instant) (refusal : Option Refusal) : Prop :=
  (∀ v, validatedAt = some v → v ≤ clock) ∧ ∀ r, refusal = some r → r.receivedAt ≤ clock

/-- What a merge changed comes from a later event than any the state had. -/
structure NotOlder (s m : State) : Prop where
  validatedAt : m.validatedAt = s.validatedAt ∨ ∃ v, m.validatedAt = some v ∧ s.newer v = true
  refusal : m.refusal = s.refusal ∨ (∃ r, m.refusal = some r ∧ s.newer r.receivedAt = true) ∨
    m.refusal = none ∧ ∃ v, m.validatedAt = some v ∧ s.newer v = true
  account : m.account = s.account ∨ (∃ r, m.refusal = some r ∧ s.newer r.receivedAt = true) ∨
    ∃ v, m.validatedAt = some v ∧ s.newer v = true

theorem Past.mono {clock later : Instant} {validatedAt : Option Instant} {refusal : Option Refusal}
    (past : Past clock validatedAt refusal) (after : clock ≤ later) : Past later validatedAt refusal :=
  ⟨fun v known => Nat.le_trans (past.1 v known) after, fun r known => Nat.le_trans (past.2 r known) after⟩

variable {L : Library} {identity : Identity} {disk : Loaded} {s m : State} {now : Instant}

theorem Merged.notOlder (merged : Merged disk s m) : NotOlder s m := by
  cases merged with
  | same _ _ => exact ⟨Or.inl rfl, Or.inl rfl, Or.inl rfl⟩
  | refusal found new => exact ⟨Or.inl rfl, Or.inr (Or.inl ⟨_, rfl, new⟩), Or.inr (Or.inl ⟨_, rfl, new⟩)⟩
  | session found new _ _ =>
    exact ⟨Or.inr ⟨_, rfl, new⟩, Or.inr (Or.inr ⟨rfl, _, rfl, new⟩), Or.inr (Or.inr ⟨_, rfl, new⟩)⟩
  | time found new _ _ => exact ⟨Or.inr ⟨_, rfl, new⟩, Or.inl rfl, Or.inl rfl⟩

theorem merge_notOlder (p : Persisted) : NotOlder s (s.merge L identity now (some p)) := by
  rcases merge_cases L identity s now p with ⟨-, same⟩ | ⟨disk, -, merged⟩
  · rw [same]
    exact ⟨Or.inl rfl, Or.inl rfl, Or.inl rfl⟩
  · exact merged.notOlder

/-- A refusal that the state would not adopt is not after a time that it would. -/
theorem no_refusal_before {v : Instant} (ordered : Ordered disk.validatedAt disk.refusal)
    (found : disk.validatedAt = some v) (new : s.newer v = true)
    (noRefusal : ∀ r, disk.refusal = some r → s.newer r.receivedAt = false) : disk.refusal = none := by
  refine Option.eq_none_iff_forall_ne_some.mpr fun r held => ?_
  have later := newer_mono new (Nat.le_of_lt (ordered v r found held))
  rw [noRefusal r held] at later
  cases later

/-- After a merge the same file has nothing newer. -/
theorem Merged.settled (merged : Merged disk s m) (ordered : Ordered disk.validatedAt disk.refusal) :
    (∀ r, disk.refusal = some r → m.newer r.receivedAt = false) ∧
      ∀ v, disk.validatedAt = some v → m.newer v = false := by
  cases merged with
  | same noRefusal noTime => exact ⟨noRefusal, noTime⟩
  | @refusal r found new =>
    refine ⟨fun other same => ?_, fun v time => ?_⟩
    · cases Option.some.inj (found.symm.trans same)
      exact newer_false_of_refusal rfl (Nat.le_refl _)
    · exact newer_false_of_refusal rfl (Nat.le_of_lt (ordered v r time found))
  | @session v account found new noRefusal present =>
    refine ⟨fun r same => ?_, fun other same => ?_⟩
    · cases (no_refusal_before ordered found new noRefusal).symm.trans same
    · cases Option.some.inj (found.symm.trans same)
      exact newer_false_of_validated rfl (Nat.le_refl _)
  | @time v found new noRefusal absent =>
    refine ⟨fun r same => ?_, fun other same => ?_⟩
    · cases (no_refusal_before ordered found new noRefusal).symm.trans same
    · cases Option.some.inj (found.symm.trans same)
      exact newer_false_of_validated rfl (Nat.le_refl _)

/-- Reading an ordered file again, at any time, changes nothing. -/
theorem merge_idempotent {p : Persisted} (ordered : Ordered p.validatedAt p.refusal) (now later : Instant) :
    (s.merge L identity now (some p)).merge L identity later (some p) = s.merge L identity now (some p) := by
  rcases merge_cases L identity s now p with ⟨ignored, -⟩ | ⟨disk, done, merged⟩
  · exact merge_ignored (read_none ignored later)
  · obtain ⟨times, refusals, -⟩ := read_events done
    obtain ⟨noRefusal, noTime⟩ := merged.settled (by rw [times, refusals]; exact ordered)
    refine merge_of_old ?_
    rintro _ ⟨⟩ -
    exact ⟨fun r found => noRefusal r (refusals.trans found), fun v found => noTime v (times.trans found)⟩

/-- A merge keeps the order of events, except that a time may be adopted next to an older refusal. -/
theorem Merged.ordered (merged : Merged disk s m) (ordered : Ordered s.validatedAt s.refusal)
    (adopts : ∀ v, disk.validatedAt = some v → s.newer v = true →
      (∀ r, disk.refusal = some r → s.newer r.receivedAt = false) → disk.account = none → s.refusal = none) :
    Ordered m.validatedAt m.refusal := by
  cases merged with
  | same _ _ => exact ordered
  | refusal found new =>
    rintro v r known ⟨⟩
    exact (newer_iff.mp new).1 v known
  | session found new _ _ => rintro v r _ ⟨⟩
  | time found new noRefusal absent =>
    intro v r _ known
    cases (adopts _ found new noRefusal absent).symm.trans known

theorem Merged.past {clock : Instant} (merged : Merged disk s m) (state : Past clock s.validatedAt s.refusal)
    (file : Past clock disk.validatedAt disk.refusal) : Past clock m.validatedAt m.refusal := by
  cases merged with
  | same _ _ => exact state
  | refusal found new =>
    refine ⟨state.1, ?_⟩
    rintro r ⟨⟩
    exact file.2 _ found
  | session found new _ _ =>
    refine ⟨?_, ?_⟩
    · rintro v ⟨⟩
      exact file.1 _ found
    · rintro r ⟨⟩
  | time found new _ _ =>
    refine ⟨?_, state.2⟩
    rintro v ⟨⟩
    exact file.1 _ found

/-- A state with a session has no refusal. -/
theorem Merged.exclusive (merged : Merged disk s m) (exclusive : s.account.isSome → s.refusal = none) :
    m.account.isSome → m.refusal = none := by
  cases merged with
  | same _ _ => exact exclusive
  | refusal found new => rintro ⟨⟩
  | session found new _ _ => exact fun _ => rfl
  | time found new _ _ => exact exclusive

/-- A merge finds nothing newer for a state whose last event is as late as all that a file knows. -/
theorem merge_of_past {clock at_ : Instant} {file : Option Persisted} (after : clock ≤ at_)
    (files : ∀ p, file = some p → Past clock p.validatedAt p.refusal)
    (event : s.validatedAt = some at_ ∨ ∃ code, s.refusal = some { code := code, receivedAt := at_ }) :
    s.merge L identity now file = s := by
  have late : ∀ t, t ≤ clock → s.newer t = false := by
    intro t past
    have order : t ≤ at_ := Nat.le_trans past after
    rcases event with known | ⟨code, known⟩
    · exact newer_false_of_validated known order
    · exact newer_false_of_refusal known order
  refine merge_of_old fun p same _ => ?_
  obtain ⟨times, refusals⟩ := files p same
  exact ⟨fun r held => late _ (refusals r held), fun v held => late _ (times v held)⟩

namespace Events

/-- Any number of processes with one identity. The history keeps every file ever written, since
a reader may hold an old one. -/
structure Deployment where
  clock : Instant := 0
  sessions : Nat → Option State := fun _ => none
  written : List Persisted := []

/-- One operation of one process: which file it reads, and the time it takes for expiry. Recorded
events are later than all before them; `wait` is how much later. -/
inductive Label where
  | start (pid : Nat) (now : Instant) (file : Option Persisted)
  | merge (pid : Nat) (now : Instant) (file : Option Persisted)
  | validated (pid : Nat) (account : SdkAccount) (wait : Nat) (now : Instant) (file : Option Persisted)
  | refused (pid : Nat) (code : Int) (wait : Nat) (now : Instant) (file : Option Persisted)
  | markStale (pid generation : Nat) (now : Instant) (file : Option Persisted)

def Label.file : Label → Option Persisted
  | .start _ _ file => file
  | .merge _ _ file => file
  | .validated _ _ _ _ file => file
  | .refused _ _ _ _ file => file
  | .markStale _ _ _ file => file

def Deployment.put (d : Deployment) (pid : Nat) (s : State) : Deployment :=
  { d with sessions := fun k => if k = pid then some s else d.sessions k }

/-- The merged state is kept in memory and its file written. -/
def Deployment.persist (identity : Identity) (d : Deployment) (pid : Nat) (s : State) : Deployment :=
  { d.put pid s with written := s.persisted identity :: d.written }

def act (L : Library) (identity : Identity) (d : Deployment) : Label → Option Deployment
  | .start pid now file =>
    if (d.sessions pid).isNone then some (d.put pid (fresh L identity now file)) else none
  | .merge pid now file => (d.sessions pid).map fun s => d.put pid (s.merge L identity now file)
  | .validated pid account wait now file => (d.sessions pid).map fun s =>
    { d with clock := d.clock + wait + 1 }.persist identity pid
      ((s.validated account (d.clock + wait + 1)).merge L identity now file)
  | .refused pid code wait now file => (d.sessions pid).map fun s =>
    { d with clock := d.clock + wait + 1 }.persist identity pid
      ((s.refused code (d.clock + wait + 1)).merge L identity now file)
  | .markStale pid generation now file => (d.sessions pid).map fun s =>
    if s.concerns generation then
      if s.account.isSome then d.persist identity pid ({ s with stale := true }.merge L identity now file)
      else d.put pid { s with stale := true }
    else d

/-- A file that is read was written by some process before. -/
def step (L : Library) (identity : Identity) (d : Deployment) (l : Label) : Option Deployment :=
  if l.file.all (fun p => decide (p ∈ d.written)) then act L identity d l else none

/-- A merge outside `persist` does not adopt the time of a session that can no longer be used
next to a refusal of its own. -/
def allowed (L : Library) (d : Deployment) : Label → Prop
  | .merge pid now file => ∀ s p v, d.sessions pid = some s → file = some p → p.validatedAt = some v →
      s.newer v = true → (∀ r, p.refusal = some r → s.newer r.receivedAt = false) →
      usable L now p = false → s.refusal = none
  | _ => True

structure StateInv (clock : Instant) (s : State) : Prop where
  ordered : Ordered s.validatedAt s.refusal
  past : Past clock s.validatedAt s.refusal
  exclusive : s.account.isSome → s.refusal = none

structure FileInv (clock : Instant) (p : Persisted) : Prop where
  ordered : Ordered p.validatedAt p.refusal
  past : Past clock p.validatedAt p.refusal

structure Inv (d : Deployment) : Prop where
  states : ∀ pid s, d.sessions pid = some s → StateInv d.clock s
  files : ∀ p ∈ d.written, FileInv d.clock p

/-- One merge keeps the invariant of a state, given what its `time` case needs. -/
theorem StateInv.merge {clock : Instant} {file : Option Persisted} (inv : StateInv clock s)
    (files : ∀ p, file = some p → FileInv clock p)
    (adopts : ∀ p v, file = some p → p.validatedAt = some v → s.newer v = true →
      (∀ r, p.refusal = some r → s.newer r.receivedAt = false) → usable L now p = false → s.refusal = none) :
    StateInv clock (s.merge L identity now file) := by
  cases file with
  | none => exact inv
  | some p =>
    rcases merge_cases L identity s now p with ⟨-, same⟩ | ⟨disk, done, merged⟩
    · rw [same]
      exact inv
    · obtain ⟨times, refusals, account⟩ := read_events done
      have file := files p rfl
      refine ⟨merged.ordered inv.ordered ?_, merged.past inv.past ?_, merged.exclusive inv.exclusive⟩
      · intro v found new noRefusal absent
        refine adopts p v rfl (times ▸ found) new (fun r held => noRefusal r (refusals ▸ held)) ?_
        rw [account] at absent
        refine Bool.eq_false_iff.mpr fun use => ?_
        rw [if_pos use] at absent
        cases absent
      · rw [times, refusals]
        exact file.past

theorem Inv.put {d : Deployment} {pid : Nat} (inv : Inv d) (state : StateInv d.clock s) : Inv (d.put pid s) where
  states := by
    intro k t found
    change (if k = pid then some s else d.sessions k) = some t at found
    split_ifs at found
    · cases found
      exact state
    · exact inv.states k t found
  files := inv.files

theorem Inv.persist {d : Deployment} {pid : Nat} (inv : Inv d) (state : StateInv d.clock s) :
    Inv (d.persist identity pid s) where
  states := (inv.put state).states
  files := by
    intro p member
    rcases List.mem_cons.mp member with rfl | member
    · exact ⟨state.ordered, state.past⟩
    · exact inv.files p member

theorem Inv.later {d : Deployment} {clock : Instant} (inv : Inv d) (after : d.clock ≤ clock) :
    Inv { d with clock := clock } where
  states := fun pid s found => by
    obtain ⟨ordered, past, exclusive⟩ := inv.states pid s found
    exact ⟨ordered, past.mono after, exclusive⟩
  files := fun p member => by
    obtain ⟨ordered, past⟩ := inv.files p member
    exact ⟨ordered, past.mono after⟩

/-- A merge right after a recorded event finds nothing newer. -/
theorem merge_after_event {clock at_ : Instant} {file : Option Persisted} (before : clock < at_)
    (files : ∀ p, file = some p → FileInv clock p)
    (event : s.validatedAt = some at_ ∨ ∃ code, s.refusal = some { code := code, receivedAt := at_ }) :
    s.merge L identity now file = s := by
  exact merge_of_past (Nat.le_of_lt before) (fun p same => (files p same).past) event

theorem step_inv {d e : Deployment} {l : Label} (inv : Inv d) (permitted : allowed L d l)
    (taken : step L identity d l = some e) : Inv e := by
  unfold step at taken
  split_ifs at taken with written
  have files : ∀ p, l.file = some p → FileInv d.clock p := by
    intro p same
    rw [same, Option.all_some, decide_eq_true_eq] at written
    exact inv.files p written
  cases l with
  | start pid now file =>
    simp only [act] at taken
    split_ifs at taken
    cases taken
    refine inv.put (StateInv.merge ⟨?_, ⟨?_, ?_⟩, ?_⟩ files fun _ _ _ _ _ _ _ => rfl)
    · rintro v r ⟨⟩
    · rintro v ⟨⟩
    · rintro r ⟨⟩
    · rintro ⟨⟩
  | merge pid now file =>
    obtain ⟨s, found, rfl⟩ := Option.map_eq_some_iff.mp taken
    refine inv.put ((inv.states pid s found).merge files ?_)
    exact fun p v same time new noRefusal use => permitted s p v found same time new noRefusal use
  | validated pid account wait now file =>
    obtain ⟨s, found, rfl⟩ := Option.map_eq_some_iff.mp taken
    have after := lt_later d.clock wait
    have unchanged : (s.validated account (d.clock + wait + 1)).merge L identity now file =
        s.validated account (d.clock + wait + 1) := merge_after_event after files (Or.inl rfl)
    rw [unchanged]
    refine (inv.later (Nat.le_of_lt after)).persist ⟨?_, ⟨?_, ?_⟩, fun _ => rfl⟩
    · rintro v r _ ⟨⟩
    · rintro v ⟨⟩
      exact Nat.le_refl _
    · rintro r ⟨⟩
  | refused pid code wait now file =>
    obtain ⟨s, found, rfl⟩ := Option.map_eq_some_iff.mp taken
    have after := lt_later d.clock wait
    have state := inv.states pid s found
    have unchanged : (s.refused code (d.clock + wait + 1)).merge L identity now file =
        s.refused code (d.clock + wait + 1) := merge_after_event after files (Or.inr ⟨code, rfl⟩)
    rw [unchanged]
    refine (inv.later (Nat.le_of_lt after)).persist ⟨?_, ⟨?_, ?_⟩, ?_⟩
    · rintro v r known ⟨⟩
      exact Nat.lt_of_le_of_lt (state.past.1 v known) after
    · exact (state.past.mono (Nat.le_of_lt after)).1
    · rintro r ⟨⟩
      exact Nat.le_refl _
    · rintro ⟨⟩
  | markStale pid generation now file =>
    obtain ⟨s, found, rfl⟩ := Option.map_eq_some_iff.mp taken
    have state := inv.states pid s found
    have marked : StateInv d.clock { s with stale := true } := ⟨state.ordered, state.past, state.exclusive⟩
    split_ifs with concerned present
    · refine inv.persist (marked.merge files fun _ _ _ _ _ _ _ => ?_)
      exact state.exclusive present
    · exact inv.put marked
    · exact inv

/-- In every run whose merges meet the condition: the refusal of a state or a file is later than
its last validation, reading a file again changes nothing, and a merge adopts nothing older. -/
theorem latest_event_wins {d : Deployment} (reach : Run.Reach (step L identity) (allowed L) {} d) :
    (∀ pid s, d.sessions pid = some s → Ordered s.validatedAt s.refusal) ∧
      (∀ p ∈ d.written, Ordered p.validatedAt p.refusal) ∧
      (∀ (s : State), ∀ p ∈ d.written, ∀ now later, (s.merge L identity now (some p)).merge L identity later (some p) =
        s.merge L identity now (some p)) ∧
      ∀ (s : State) p now, NotOlder s (s.merge L identity now (some p)) := by
  have inv : Inv d := by
    refine reach.invariant ⟨?_, ?_⟩ fun _ _ _ inv permitted taken => step_inv inv permitted taken
    · rintro pid s ⟨⟩
    · exact fun p member => absurd member List.not_mem_nil
  refine ⟨fun pid s found => (inv.states pid s found).ordered, fun p member => (inv.files p member).ordered,
    fun s p member now later => ?_, fun s p now => merge_notOlder p⟩
  exact merge_idempotent (inv.files p member).ordered now later

end Events

namespace Sample

/-- A JWT whose payload is `exp` 7200. -/
def token : String := "e30.eyJleHAiOjcyMDB9.c2ln"

def library : Library where
  tokenExpiry := fun t => if t = token then some 7200 else none
  headerValue := fun t => t.toList.all fun c => ' ' ≤ c && c ≤ '~'
  fileSize := fun p => 200 + p.idToken.utf8ByteSize

def owner : Identity where
  uid := "1001"
  accessKey := "key"
  accessKeyFingerprint := "2c70e12b7a0646f9"

def account : SdkAccount where
  uid := "1001"
  accessKey := "key"
  idToken := token
  mid := none

def hours (n : Nat) : Instant := n * 3600000000000

def refusedFile : Persisted := (State.refused 1 1 {}).persisted owner

def validatedFile : Persisted := (State.validated account 2 {}).persisted owner

/-- Process 0 is refused. Process 1 knows the refusal, logs in later and writes its session.
Process 0 reads that file after the token has expired. -/
def overtaken : List Events.Label :=
  [.start 0 0 none, .refused 0 1 0 0 none, .start 1 1 (some refusedFile),
    .validated 1 account 0 2 (some refusedFile), .merge 0 (hours 3) (some validatedFile)]

end Sample

namespace Events

/-- The refusal stays although the last validation is later. -/
theorem refusal_outlives_validation :
    ∃ d s v r, Run.Reach (step Sample.library Sample.owner) (fun _ _ => True) {} d ∧
      d.sessions 0 = some s ∧ s.validatedAt = some v ∧ s.refusal = some r ∧ r.receivedAt < v := by
  have runs : (Run.exec (step Sample.library Sample.owner) {} Sample.overtaken).map (fun d =>
      (d.sessions 0).map fun s => (s.validatedAt, s.refusal.map (·.receivedAt))) =
        some (some (some 2, some 1)) := by
    decide +kernel
  obtain ⟨d, run, shape⟩ := Option.map_eq_some_iff.mp runs
  obtain ⟨s, found, events⟩ := Option.map_eq_some_iff.mp shape
  obtain ⟨validated, refused⟩ := Prod.mk.inj events
  obtain ⟨r, held, received⟩ := Option.map_eq_some_iff.mp refused
  refine ⟨d, s, 2, r, Run.reach_of_exec run, found, validated, held, ?_⟩
  rw [received]
  decide

/-- The same processes, with the file read while its token can still be used. -/
theorem latest_event_wins_in_time :
    ∃ d s, Run.Reach (step Sample.library Sample.owner) (allowed Sample.library) {} d ∧
      d.sessions 0 = some s ∧ s.validatedAt = some 2 ∧ Ordered s.validatedAt s.refusal := by
  have reach : Run.Reach (step Sample.library Sample.owner) (allowed Sample.library) {} _ :=
    .next (l := Label.merge 0 3 (some Sample.validatedFile))
      (.next (l := Label.validated 1 Sample.account 0 2 (some Sample.refusedFile))
        (.next (l := Label.start 1 1 (some Sample.refusedFile))
          (.next (l := Label.refused 0 1 0 0 none)
            (.next (l := Label.start 0 0 none) .start trivial rfl) trivial rfl) trivial rfl) trivial rfl)
      (by
        rintro s p v - ⟨⟩ - - - unused
        exact absurd unused (by decide))
      rfl
  exact ⟨_, _, reach, rfl, rfl, (latest_event_wins reach).1 0 _ rfl⟩

end Events

end SiriusProxy.Sdk
