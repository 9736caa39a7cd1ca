import SiriusProxy.Sdk.Events

namespace SiriusProxy.Sdk.Signals

/-- A session handed out by `reusable` or `revalidate` of one process; a region keeps the generation for the
signals of the game sessions that it opens with the token. -/
structure Handed where
  pid : Nat
  account : SdkAccount
  generation : Nat
  deriving DecidableEq, Repr

/-- The sessions of one identity, one a process, and their state file. -/
structure World where
  clock : Instant := 0
  file : Option Persisted := none
  sessions : Nat → Option State := fun _ => none
  handed : List Handed := []

/-- One operation under the state lock of a process, with its read and write of the file; `now` is the time it takes
for expiry and `written` tells whether the write succeeds. An event is not earlier than any before it; `wait` is how
much later. `exclusive` is the merge under the lock file. -/
inductive Label where
  | tick (duration : Nat)
  | start (pid : Nat) (now : Instant)
  | exclusive (pid : Nat) (now : Instant)
  | reusable (pid : Nat) (now : Instant)
  | revalidate (pid : Nat) (account : SdkAccount) (wait : Nat) (now : Instant) (written : Bool)
  | refused (pid : Nat) (code : Int) (wait : Nat) (now : Instant) (written : Bool)
  | markStale (pid generation : Nat) (now : Instant) (written : Bool)

variable (L : Library) (identity : Identity)

def World.put (w : World) (pid : Nat) (s : State) : World :=
  { w with sessions := fun k => if k = pid then some s else w.sessions k }

/-- `persist`; a write that fails leaves the file as it was. -/
def World.persist (w : World) (pid : Nat) (s : State) (now : Instant) (written : Bool) : World :=
  let s := s.merge L identity now w.file
  { w.put pid s with file := if written then some (s.persisted identity) else w.file }

/-- What `revalidate` hands out: its own account with the generation that the session has after the write. -/
def World.handOut (w : World) (pid : Nat) (account : SdkAccount) : World :=
  match w.sessions pid with
  | none => w
  | some s => { w with handed := { pid := pid, account := account, generation := s.generation } :: w.handed }

def World.reused (w : World) (pid : Nat) (found : Option (SdkAccount × Nat)) : World :=
  match found with
  | none => w
  | some (account, generation) => { w with handed := { pid, account, generation } :: w.handed }

def World.marked (w : World) (pid generation : Nat) (now : Instant) (written : Bool) (s : State) : World :=
  if s.concerns generation then
    if s.account.isSome then w.persist L identity pid { s with stale := true } now written
    else w.put pid { s with stale := true }
  else w

def step (w : World) : Label → Option World
  | .tick duration => some { w with clock := w.clock + duration }
  | .start pid now => if (w.sessions pid).isNone then some (w.put pid (fresh L identity now w.file)) else none
  | .exclusive pid now => (w.sessions pid).map fun s => w.put pid (s.merge L identity now w.file)
  | .reusable pid now => (w.sessions pid).map fun s => w.reused pid (s.reusable L now)
  | .revalidate pid account wait now written => (w.sessions pid).map fun s =>
    ({ w with clock := w.clock + wait }.persist L identity pid (s.validated account (w.clock + wait)) now
      written).handOut pid account
  | .refused pid code wait now written => (w.sessions pid).map fun s =>
    { w with clock := w.clock + wait }.persist L identity pid (s.refused code (w.clock + wait)) now written
  | .markStale pid generation now written => (w.sessions pid).map fun s =>
    w.marked L identity pid generation now written s

/-- What happens to the account of a session: it stays, or the generation counts on. -/
def Moved (s t : State) : Prop := t.generation = s.generation ∧ t.account = s.account ∨ s.generation < t.generation

structure Inv (w : World) : Prop where
  states : ∀ pid s, w.sessions pid = some s → Past w.clock s.validatedAt s.refusal
  file : ∀ p, w.file = some p → Past w.clock p.validatedAt p.refusal
  named : ∀ h ∈ w.handed, ∃ s, w.sessions h.pid = some s ∧ h.generation ≤ s.generation ∧
    (h.generation = s.generation → s.account = some h.account)
  same : ∀ h ∈ w.handed, ∀ k ∈ w.handed, h.pid = k.pid → h.generation = k.generation → h.account = k.account

variable {L identity} {w x : World} {s t : State} {pid generation : Nat} {now : Instant} {written : Bool}

theorem moved_of_merged {disk : Loaded} (merged : Merged disk s t) : Moved s t := by
  cases merged with
  | same => exact Or.inl ⟨rfl, rfl⟩
  | refusal => exact Or.inr (Nat.lt_succ_self _)
  | session => exact Or.inr (Nat.lt_succ_self _)
  | time => exact Or.inl ⟨rfl, rfl⟩

theorem merge_moved (file : Option Persisted) : Moved s (s.merge L identity now file) := by
  cases file with
  | none => exact Or.inl ⟨rfl, rfl⟩
  | some p =>
    rcases merge_cases L identity s now p with ⟨-, same⟩ | ⟨disk, -, merged⟩
    · rw [same]
      exact Or.inl ⟨rfl, rfl⟩
    · exact moved_of_merged merged

theorem merge_past {clock : Instant} {file : Option Persisted} (past : Past clock s.validatedAt s.refusal)
    (stored : ∀ p, file = some p → Past clock p.validatedAt p.refusal) :
    Past clock (s.merge L identity now file).validatedAt (s.merge L identity now file).refusal := by
  cases file with
  | none => exact past
  | some p =>
    rcases merge_cases L identity s now p with ⟨-, same⟩ | ⟨disk, done, merged⟩
    · rw [same]
      exact past
    · obtain ⟨times, refusals, -⟩ := read_events done
      refine merged.past past ?_
      rw [times, refusals]
      exact stored p rfl

theorem Moved.named {h : Handed} (moved : Moved s t) (bound : h.generation ≤ s.generation)
    (own : h.generation = s.generation → s.account = some h.account) :
    h.generation ≤ t.generation ∧ (h.generation = t.generation → t.account = some h.account) := by
  rcases moved with ⟨generation, account⟩ | later
  · rw [generation, account]
    exact ⟨bound, own⟩
  · exact ⟨by omega, fun same => by omega⟩

/-- One session moves on. -/
theorem Inv.put (inv : Inv w) (known : w.sessions pid = some s) (moved : Moved s t)
    (past : Past w.clock t.validatedAt t.refusal) : Inv (w.put pid t) where
  states := by
    intro k u found
    change (if k = pid then some t else w.sessions k) = some u at found
    split_ifs at found
    · cases found
      exact past
    · exact inv.states k u found
  file := inv.file
  named := by
    intro h member
    obtain ⟨u, found, bound, own⟩ := inv.named h member
    by_cases mine : h.pid = pid
    · rw [mine, known] at found
      cases found
      exact ⟨t, if_pos mine, moved.named bound own⟩
    · exact ⟨u, (if_neg mine).trans found, bound, own⟩
  same := inv.same

theorem Inv.later (inv : Inv w) (wait : Nat) : Inv { w with clock := w.clock + wait } where
  states := fun pid s found => (inv.states pid s found).mono (Nat.le_add_right _ _)
  file := fun p found => (inv.file p found).mono (Nat.le_add_right _ _)
  named := inv.named
  same := inv.same

theorem Inv.persist (inv : Inv w) (known : w.sessions pid = some s) (moved : Moved s t)
    (past : Past w.clock t.validatedAt t.refusal) : Inv (w.persist L identity pid t now written) := by
  have merged : Moved s (t.merge L identity now w.file) := by
    have stays : Moved t (t.merge L identity now w.file) := merge_moved w.file
    rcases stays with ⟨generation, account⟩ | later
    · rcases moved with ⟨first, second⟩ | first
      · exact Or.inl ⟨generation.trans first, account.trans second⟩
      · exact Or.inr (by omega)
    · rcases moved with ⟨first, -⟩ | first
      · exact Or.inr (by omega)
      · exact Or.inr (by omega)
  have stored := inv.put known merged (merge_past past inv.file)
  refine ⟨stored.states, fun p found => ?_, stored.named, stored.same⟩
  change (if written then some ((t.merge L identity now w.file).persisted identity) else w.file) = some p at found
  split_ifs at found
  · cases found
    exact merge_past past inv.file
  · exact inv.file p found

/-- A pair that is handed out is the session's own. -/
theorem Inv.handOut {h : Handed} (inv : Inv w) (known : w.sessions h.pid = some s)
    (generation : h.generation = s.generation) (account : s.account = some h.account) :
    Inv { w with handed := h :: w.handed } where
  states := inv.states
  file := inv.file
  named := by
    intro k member
    rcases List.mem_cons.mp member with rfl | old
    · exact ⟨s, known, Nat.le_of_eq generation, fun _ => account⟩
    · exact inv.named k old
  same := by
    have agrees : ∀ k ∈ w.handed, k.pid = h.pid → k.generation = h.generation → k.account = h.account := by
      intro k member pid same
      obtain ⟨u, found, -, own⟩ := inv.named k member
      rw [pid, known] at found
      cases found
      exact Option.some.inj ((own (same.trans generation)).symm.trans account)
    intro k left l right pid same
    rcases List.mem_cons.mp left with rfl | first
    · rcases List.mem_cons.mp right with rfl | second
      · rfl
      · exact (agrees l second pid.symm same.symm).symm
    · rcases List.mem_cons.mp right with rfl | second
      · exact agrees k first pid same
      · exact inv.same k first l second pid same

theorem step_inv {l : Label} (inv : Inv w) (taken : step L identity w l = some x) : Inv x := by
  cases l with
  | tick duration =>
    cases taken
    exact inv.later duration
  | start pid now =>
    simp only [step] at taken
    split_ifs at taken with absent
    cases taken
    have missing := Option.isNone_iff_eq_none.mp absent
    refine ⟨fun k u found => ?_, inv.file, fun h member => ?_, inv.same⟩
    · change (if k = pid then some (fresh L identity now w.file) else w.sessions k) = some u at found
      split_ifs at found
      · cases found
        exact merge_past ⟨nofun, nofun⟩ inv.file
      · exact inv.states k u found
    · obtain ⟨u, found, rest⟩ := inv.named h member
      have other : h.pid ≠ pid := by
        rintro rfl
        rw [missing] at found
        cases found
      exact ⟨u, (if_neg other).trans found, rest⟩
  | exclusive pid now =>
    obtain ⟨s, known, rfl⟩ := Option.map_eq_some_iff.mp taken
    exact inv.put known (merge_moved w.file) (merge_past (inv.states pid s known) inv.file)
  | reusable pid now =>
    obtain ⟨s, known, rfl⟩ := Option.map_eq_some_iff.mp taken
    cases found : s.reusable L now with
    | none => exact inv
    | some pair =>
      obtain ⟨account, generation⟩ := pair
      unfold State.reusable at found
      split_ifs at found
      obtain ⟨own, kept, same⟩ := Option.map_eq_some_iff.mp found
      cases same
      exact inv.handOut (h := ⟨pid, account, s.generation⟩) known rfl (Option.filter_eq_some_iff.mp kept).1
  | revalidate pid account wait now written =>
    obtain ⟨s, known, rfl⟩ := Option.map_eq_some_iff.mp taken
    have later := inv.later wait
    have unchanged : (s.validated account (w.clock + wait)).merge L identity now w.file =
        s.validated account (w.clock + wait) :=
      merge_of_past (Nat.le_add_right _ _) inv.file (Or.inl rfl)
    have past : Past (w.clock + wait) (s.validated account (w.clock + wait)).validatedAt none := by
      refine ⟨?_, nofun⟩
      rintro v ⟨⟩
      exact Nat.le_refl _
    have stored : Inv ({ w with clock := w.clock + wait }.persist L identity pid
        (s.validated account (w.clock + wait)) now written) :=
      later.persist known (Or.inr (Nat.lt_succ_self _)) past
    have held : ({ w with clock := w.clock + wait }.persist L identity pid (s.validated account (w.clock + wait)) now
        written).sessions pid = some (s.validated account (w.clock + wait)) := by
      change (if pid = pid then some ((s.validated account (w.clock + wait)).merge L identity now w.file)
        else w.sessions pid) = _
      rw [if_pos rfl, unchanged]
    unfold World.handOut
    rw [held]
    exact stored.handOut (h := ⟨pid, account, s.generation + 1⟩) held rfl rfl
  | refused pid code wait now written =>
    obtain ⟨s, known, rfl⟩ := Option.map_eq_some_iff.mp taken
    refine (inv.later wait).persist known (Or.inr (Nat.lt_succ_self _)) ⟨?_, ?_⟩
    · exact ((inv.states pid s known).mono (Nat.le_add_right _ _)).1
    · rintro r ⟨⟩
      exact Nat.le_refl _
  | markStale pid generation now written =>
    obtain ⟨s, known, rfl⟩ := Option.map_eq_some_iff.mp taken
    unfold World.marked
    have past := inv.states pid s known
    split_ifs
    · exact inv.persist known (Or.inl ⟨rfl, rfl⟩) past
    · exact inv.put known (Or.inl ⟨rfl, rfl⟩) past
    · exact inv

theorem sessions_put (k : Nat) : (w.put pid t).sessions k = if k = pid then some t else w.sessions k := rfl

theorem sessions_persist (k : Nat) : (w.persist L identity pid t now written).sessions k =
    if k = pid then some (t.merge L identity now w.file) else w.sessions k := rfl

/-- A merge that leaves a session stale leaves its account, and it was stale before. -/
theorem stale_of_merge {file : Option Persisted} (stale : (s.merge L identity now file).stale = true) :
    s.stale = true ∧ (s.merge L identity now file).account = s.account := by
  cases file with
  | none => exact ⟨stale, rfl⟩
  | some p =>
    rcases merge_cases L identity s now p with ⟨-, same⟩ | ⟨disk, -, merged⟩
    · rw [same] at stale ⊢
      exact ⟨stale, rfl⟩
    · generalize s.merge L identity now (some p) = m at merged stale
      cases merged with
      | same => exact ⟨stale, rfl⟩
      | refusal => cases stale
      | session => cases stale
      | time => exact ⟨stale, rfl⟩

theorem handOut_sessions (pid : Nat) (account : SdkAccount) : (w.handOut pid account).sessions = w.sessions := by
  unfold World.handOut
  split
  · rfl
  · rfl

theorem reused_sessions (pid : Nat) (found : Option (SdkAccount × Nat)) :
    (w.reused pid found).sessions = w.sessions := by
  unfold World.reused
  split
  · rfl
  · rfl

/-- A step of another process leaves a session alone. -/
theorem sessions_other {k : Nat} {u : State} (other : pid ≠ k) (before : w.sessions pid = some s)
    (after : (w.put k u).sessions pid = some t) : t = s := by
  rw [sessions_put, if_neg other, before] at after
  exact (Option.some.inj after).symm

/-- A session that a merge of a sound state has put in place is not stale. -/
theorem sound_of_put {file : Option Persisted} {u : State} {k : Nat} (before : w.sessions pid = some s)
    (after : (w.put k (u.merge L identity now file)).sessions pid = some t) (sound : s.stale = false)
    (new : u.stale = false) : t.stale = false := by
  by_cases mine : pid = k
  · rw [sessions_put, if_pos mine] at after
    cases after
    refine Bool.eq_false_iff.mpr fun stale => ?_
    rw [(stale_of_merge stale).1] at new
    cases new
  · rw [sessions_other mine before after]
    exact sound

theorem concerns_iff : s.concerns generation = true ↔ s.generation = generation ∧ s.stale = false := by
  rw [State.concerns, Bool.and_eq_true, beq_iff_eq, Bool.not_eq_true']

/-- Only a signal of its own generation makes a session stale, and it keeps the account. -/
theorem stale_of_step {l : Label} (taken : step L identity w l = some x) (before : w.sessions pid = some s)
    (after : x.sessions pid = some t) (sound : s.stale = false) (stale : t.stale = true) :
    (∃ now written, l = .markStale pid s.generation now written) ∧ t.account = s.account := by
  have kept (same : t.stale = false) : (∃ now written, l = .markStale pid s.generation now written) ∧
      t.account = s.account := by
    rw [same] at stale
    cases stale
  cases l with
  | tick duration =>
    cases taken
    rw [Option.some.inj (before.symm.trans after)] at sound
    exact kept sound
  | start k now =>
    simp only [step] at taken
    split_ifs at taken with absent
    cases taken
    exact kept (sound_of_put before after sound rfl)
  | exclusive k now =>
    obtain ⟨u, known, rfl⟩ := Option.map_eq_some_iff.mp taken
    by_cases mine : pid = k
    · subst mine
      cases before.symm.trans known
      exact kept (sound_of_put before after sound sound)
    · exact kept ((sessions_other mine before after).symm ▸ sound)
  | reusable k now =>
    obtain ⟨u, known, rfl⟩ := Option.map_eq_some_iff.mp taken
    rw [reused_sessions, before] at after
    exact kept (Option.some.inj after ▸ sound)
  | revalidate k account wait now written =>
    obtain ⟨u, known, rfl⟩ := Option.map_eq_some_iff.mp taken
    rw [handOut_sessions] at after
    exact kept (sound_of_put before after sound rfl)
  | refused k code wait now written =>
    obtain ⟨u, known, rfl⟩ := Option.map_eq_some_iff.mp taken
    exact kept (sound_of_put before after sound rfl)
  | markStale k generation now written =>
    obtain ⟨u, known, rfl⟩ := Option.map_eq_some_iff.mp taken
    unfold World.marked at after
    by_cases mine : pid = k
    · subst mine
      cases before.symm.trans known
      split_ifs at after with concerned present
      · rw [sessions_persist, if_pos rfl] at after
        cases after
        exact ⟨⟨now, written, by rw [(concerns_iff.mp concerned).1]⟩, (stale_of_merge stale).2⟩
      · rw [sessions_put, if_pos rfl] at after
        cases after
        exact ⟨⟨now, written, by rw [(concerns_iff.mp concerned).1]⟩, rfl⟩
      · rw [before] at after
        exact kept (Option.some.inj after ▸ sound)
    · split_ifs at after
      · exact kept ((sessions_other mine before after).symm ▸ sound)
      · exact kept ((sessions_other mine before after).symm ▸ sound)
      · rw [before] at after
        exact kept (Option.some.inj after ▸ sound)

/-- The newer session in the file is adopted. -/
theorem merge_adopts {p : Persisted} {disk : Loaded} {b : SdkAccount} {v : Instant}
    (done : read L identity now p = some disk) (usable : disk.account = some b) (time : disk.validatedAt = some v)
    (new : s.newer v = true) : s.merge L identity now (some p) =
      { s with
        validatedAt := some v, account := some b, generation := s.generation + 1, stale := false,
        refusal := none } := by
  obtain ⟨-, refusals, account⟩ := read_events done
  have unrefused : disk.refusal = none := by
    rw [account] at usable
    split_ifs at usable with use
    rw [refusals]
    simp only [Sdk.usable, Bool.and_eq_true] at use
    exact Option.isNone_iff_eq_none.mp use.1.1.1.1
  have fresh : disk.validatedAt.filter s.newer = some v := by
    rw [time, Option.filter_some, if_pos new]
  unfold State.merge
  rw [Option.bind_some, done]
  simp only [State.mergeLoaded, unrefused, Option.filter_none, fresh, usable]

theorem token_of_read {p : Persisted} {disk : Loaded} {b : SdkAccount} (done : read L identity now p = some disk)
    (usable : disk.account = some b) : b.idToken = p.idToken := by
  obtain ⟨-, -, account⟩ := read_events done
  rw [account] at usable
  split_ifs at usable
  cases usable
  rfl

/-- A signal leaves a newer session of another process in the file. -/
theorem marked_keeps {p : Persisted} {disk : Loaded} {b : SdkAccount} {v : Instant} (held : w.file = some p)
    (done : read L identity now p = some disk) (usable : disk.account = some b) (time : disk.validatedAt = some v)
    (new : s.newer v = true) :
    ∃ q, (w.marked L identity pid generation now written s).file = some q ∧ q.idToken = b.idToken := by
  have same := token_of_read done usable
  unfold World.marked
  split_ifs with concerned present
  · have adopted := merge_adopts (s := { s with stale := true }) done usable time new
    unfold World.persist
    rw [held, adopted]
    cases written with
    | true => exact ⟨_, rfl, rfl⟩
    | false => exact ⟨p, rfl, same.symm⟩
  · exact ⟨p, held, same.symm⟩
  · exact ⟨p, held, same.symm⟩

/-- The sessions of a deployment that starts, with the file of an earlier one. -/
structure Start (w : World) : Prop where
  sessions : ∀ pid, w.sessions pid = none
  handed : w.handed = []
  file : ∀ p, w.file = some p → Past w.clock p.validatedAt p.refusal

theorem Start.inv (start : Start w) : Inv w where
  states pid s found := by
    rw [start.sessions pid] at found
    cases found
  file := start.file
  named h member := by
    rw [start.handed] at member
    exact absurd member List.not_mem_nil
  same h member := by
    rw [start.handed] at member
    exact absurd member List.not_mem_nil

/-- In every run: what is handed out with one generation is one token; only a signal of the generation that a token
was handed out with makes a session stale, and only while the session has that token; a signal about another token than
the session's changes nothing; and a newer session that another process has written stays in the file. -/
theorem signals_mark_their_token {start : World} (first : Start start)
    (reach : Run.Reach (step L identity) (fun _ _ => True) start w) :
    (∀ h ∈ w.handed, ∀ k ∈ w.handed, h.pid = k.pid → h.generation = k.generation →
      h.account.idToken = k.account.idToken) ∧
    (∀ l x pid s t, step L identity w l = some x → w.sessions pid = some s → x.sessions pid = some t →
      s.stale = false → t.stale = true → ∃ generation now written, l = .markStale pid generation now written ∧
        ∀ h ∈ w.handed, h.pid = pid → h.generation = generation →
          s.account = some h.account ∧ t.account = some h.account) ∧
    (∀ h ∈ w.handed, ∀ s, w.sessions h.pid = some s → s.account ≠ some h.account → ∀ now written,
      step L identity w (.markStale h.pid h.generation now written) = some w) ∧
    ∀ pid generation now written s p disk b v x, w.sessions pid = some s → w.file = some p →
      read L identity now p = some disk → disk.account = some b → disk.validatedAt = some v → s.newer v = true →
      step L identity w (.markStale pid generation now written) = some x →
      ∃ q, x.file = some q ∧ q.idToken = b.idToken := by
  have inv : Inv w := reach.invariant first.inv fun _ _ _ inv _ taken => step_inv inv taken
  refine ⟨fun h left k right pid same => congrArg SdkAccount.idToken (inv.same h left k right pid same), ?_, ?_, ?_⟩
  · intro l x pid s t taken before after sound stale
    obtain ⟨⟨now, written, rfl⟩, account⟩ := stale_of_step taken before after sound stale
    refine ⟨s.generation, now, written, rfl, fun h member mine same => ?_⟩
    obtain ⟨u, found, -, own⟩ := inv.named h member
    rw [mine, before] at found
    cases found
    exact ⟨own same, account.trans (own same)⟩
  · intro h member s known replaced now written
    obtain ⟨u, found, -, own⟩ := inv.named h member
    cases known.symm.trans found
    have other : ¬ s.concerns h.generation = true := fun concerned =>
      replaced (own (concerns_iff.mp concerned).1.symm)
    simp only [step, known, Option.map_some, World.marked, if_neg other]
  · intro pid generation now written s p disk b v x known held done usable time new taken
    obtain ⟨u, found, rfl⟩ := Option.map_eq_some_iff.mp taken
    cases known.symm.trans found
    exact marked_keeps held done usable time new

/-- A signal about the first of two tokens comes after the second. -/
theorem late_signal_changes_nothing :
    ∃ w s, Run.Reach (step Sample.library Sample.owner) (fun _ _ => True) {} w ∧ w.sessions 0 = some s ∧
      s.account = some { Sample.account with idToken := "newer" } ∧ s.stale = false ∧
      step Sample.library Sample.owner w (.markStale 0 1 3 true) = some w := by
  have reach : Run.Reach (step Sample.library Sample.owner) (fun _ _ => True) {} _ :=
    .next (l := Label.revalidate 0 { Sample.account with idToken := "newer" } 1 2 true)
      (.next (l := Label.revalidate 0 Sample.account 1 1 true)
        (.next (l := Label.start 0 0) .start trivial rfl) trivial rfl) trivial rfl
  have first : Start {} := ⟨fun _ => rfl, rfl, nofun⟩
  have unchanged := (signals_mark_their_token first reach).2.2.1 ⟨0, Sample.account, 1⟩ (by decide) _ rfl (by decide)
  exact ⟨_, _, reach, rfl, rfl, rfl, unchanged 3 true⟩

end SiriusProxy.Sdk.Signals
