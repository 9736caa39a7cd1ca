import SiriusProxy.Health.Path
import SiriusProxy.Lib.Permits
import SiriusProxy.Lib.Run

namespace SiriusProxy.PathHealth.Breaker

/-- A path and its callers. Each live ticket is listed with whether it is a probe; `streak` notes the
sources of the faults since the last healthy outcome, newest first. -/
structure World where
  clock : Instant := 0
  state : State := {}
  tickets : List Bool := []
  streak : List (Option String) := []

inductive Label where
  | tick (duration : Nat)
  | record (source : Option String) (outcome : Outcome)
  | admitCall
  | dropTicket (index : Nat)

def extend (source : Option String) (streak : List (Option String)) : Outcome → List (Option String)
  | .healthy => []
  | .fault _ => source :: streak

def World.admitted (w : World) (answer : State × Bool) : World :=
  { w with state := answer.1, tickets := answer.2 :: w.tickets }

def World.dropped (w : World) (index : Nat) (probe : Bool) : World :=
  { w with state := PathHealth.dropTicket probe w.state, tickets := w.tickets.eraseIdx index }

def step (cfg : Settings) (w : World) : Label → Option World
  | .tick duration => some { w with clock := w.clock + duration }
  | .record source outcome =>
    some
      { w with
        state := (PathHealth.record cfg w.clock source outcome w.state).1
        streak := extend source w.streak outcome }
  | .admitCall => (PathHealth.admitCall w.clock w.state).map w.admitted
  | .dropTicket index => w.tickets[index]?.map (w.dropped index)

/-- The bookkeeping of the streak in progress. -/
structure Streak (cfg : Settings) (s : State) (streak : List (Option String)) : Prop where
  bounded : s.failures ≤ u32Max
  counting : s.failures = 0 ↔ streak = []
  attributed : s.attributed = true → 0 < s.failures
  alone : cfg.distinctSources = true → s.attributed = false →
    ∀ source ∈ streak, source = s.firstSource ∧ source.isSome
  mixed : cfg.distinctSources = true → s.attributed = true → ∀ name, ∃ source ∈ streak, source ≠ some name

structure Inv (cfg : Settings) (w : World) : Prop where
  streak : Streak cfg w.state w.streak
  opened : w.state.openUntil.isSome → w.state.attributed = true ∧ cfg.threshold ≤ w.state.failures
  counted : Permits.Counted w.state.probing w.tickets

variable {cfg : Settings} {s : State} {streak : List (Option String)} {w x : World} {source : Option String}

/-- A fault before it is judged. -/
theorem beginStreak_streak (held : Streak cfg s streak) :
    (beginStreak s).failures = s.failures ∧ (beginStreak s).openUntil = s.openUntil ∧
      (beginStreak s).probing = s.probing ∧
      ((beginStreak s).attributed = true → s.attributed = true ∧ streak ≠ []) ∧
      ((beginStreak s).attributed = false → (beginStreak s).firstSource = none ∧ streak = [] ∨
        s.attributed = false ∧ (beginStreak s).firstSource = s.firstSource ∧ streak ≠ []) := by
  unfold beginStreak
  split
  · rename_i first
    refine ⟨rfl, rfl, rfl, nofun, fun _ => Or.inl ⟨rfl, held.counting.mp first⟩⟩
  · rename_i further
    have going : streak ≠ [] := fun empty => further (held.counting.mpr empty)
    exact ⟨rfl, rfl, rfl, fun attributed => ⟨attributed, going⟩, fun plain => Or.inr ⟨plain, rfl, going⟩⟩

/-- What the judgement of a fault does: nothing but the attribution and the first source. -/
theorem attributeStreak_cases (cfg : Settings) (source : Option String) (s : State) :
    (s.attributed = true ∧ (attributeStreak cfg source s).1 = s) ∨
      (s.attributed = false ∧ ∃ first, blame cfg source s.firstSource = (true, first) ∧
        (attributeStreak cfg source s).1 =
          { s with firstSource := first, attributed := true, lastAttributed := s.epoch }) ∨
      (s.attributed = false ∧ ∃ first, blame cfg source s.firstSource = (false, first) ∧
        (attributeStreak cfg source s).1 = { s with firstSource := first }) := by
  unfold attributeStreak
  cases attributed : s.attributed with
  | true => exact Or.inl ⟨rfl, rfl⟩
  | false =>
    cases judged : blame cfg source s.firstSource with
    | mk path first =>
      cases path with
      | true => exact Or.inr (Or.inl ⟨rfl, first, rfl, rfl⟩)
      | false => exact Or.inr (Or.inr ⟨rfl, first, rfl, rfl⟩)

/-- With distinct sources a fault is the path's only if it is anonymous or of a second account. -/
theorem blame_true {first remembered : Option String} (distinct : cfg.distinctSources = true)
    (path : blame cfg source first = (true, remembered)) :
    source = none ∨ ∃ earlier name, first = some earlier ∧ source = some name ∧ earlier ≠ name := by
  unfold blame at path
  cases source with
  | none => exact Or.inl rfl
  | some name =>
    simp only [distinct, if_true] at path
    cases first with
    | none => cases path
    | some earlier =>
      have other := (Prod.mk.inj path).1
      exact Or.inr ⟨earlier, name, rfl, rfl, by simpa using other⟩

theorem blame_false {first remembered : Option String} (own : blame cfg source first = (false, remembered)) :
    source.isSome ∧ remembered = source ∧ (first = none ∨ first = source) := by
  unfold blame at own
  cases source with
  | none => cases own
  | some name =>
    simp only at own
    split at own
    · cases first with
      | none =>
        cases own
        exact ⟨rfl, rfl, Or.inl rfl⟩
      | some earlier =>
        obtain ⟨other, rfl⟩ := Prod.mk.inj own
        have same : earlier = name := by simpa using other
        exact ⟨rfl, by rw [same], Or.inr (by rw [same])⟩
    · cases own

theorem le_satSucc_self {n : Nat} (bounded : n ≤ u32Max) : n ≤ satSucc n := le_satSucc (Nat.le_succ n) bounded

/-- The state of a fault that is counted and judged, before the path is opened. -/
def judge (cfg : Settings) (source : Option String) (s : State) : State :=
  (attributeStreak cfg source { beginStreak s with failures := satSucc (beginStreak s).failures }).1

theorem recordFault_eq (cfg : Settings) (now : Instant) (source : Option String) (s : State) :
    (recordFault cfg now source s).1 = (trip cfg now (judge cfg source s)).1 := rfl

/-- A streak that is blamed on the path is not of one source. -/
theorem blame_mixed {source remembered : Option String} (held : Streak cfg s streak)
    (distinct : cfg.distinctSources = true) (fresh : (beginStreak s).attributed = false)
    (path : blame cfg source (beginStreak s).firstSource = (true, remembered)) (name : String) :
    ∃ other ∈ source :: streak, other ≠ some name := by
  obtain ⟨-, -, -, -, plain⟩ := beginStreak_streak held
  rcases blame_true distinct path with anonymous | ⟨earlier, second, before, now, differs⟩
  · exact ⟨source, List.mem_cons_self, by rw [anonymous]; nofun⟩
  · by_cases same : second = name
    · rcases plain fresh with ⟨nothing, -⟩ | ⟨unattributed, remembered, going⟩
      · cases nothing.symm.trans before
      · obtain ⟨other, member⟩ := List.exists_mem_of_ne_nil streak going
        obtain ⟨equal, -⟩ := held.alone distinct unattributed other member
        refine ⟨other, List.mem_cons_of_mem _ member, ?_⟩
        rw [equal, ← remembered, before, ← same]
        exact fun meet => differs (Option.some.inj meet)
    · refine ⟨source, List.mem_cons_self, ?_⟩
      rw [now]
      exact fun meet => same (Option.some.inj meet)

/-- The judgement keeps the bookkeeping; it touches neither the open interval nor the probe, and an
attributed streak stays so. -/
theorem judge_streak (source : Option String) (held : Streak cfg s streak) :
    Streak cfg (judge cfg source s) (source :: streak) ∧ (judge cfg source s).openUntil = s.openUntil ∧
      (judge cfg source s).probing = s.probing ∧ s.failures ≤ (judge cfg source s).failures ∧
      (s.attributed = true → (judge cfg source s).attributed = true) := by
  obtain ⟨failures, opened, probing, attributed, plain⟩ := beginStreak_streak held
  have positive : 0 < satSucc (beginStreak s).failures := satSucc_pos _
  have bounded : satSucc (beginStreak s).failures ≤ u32Max := satSucc_le _
  have more : s.failures ≤ satSucc (beginStreak s).failures := by
    rw [failures]
    exact le_satSucc_self held.bounded
  have counting : satSucc (beginStreak s).failures = 0 ↔ source :: streak = [] :=
    ⟨fun zero => absurd zero (Nat.ne_of_gt positive), nofun⟩
  have kept : s.attributed = true → (beginStreak s).attributed = true := by
    intro already
    have going := held.attributed already
    unfold beginStreak
    rw [if_neg (Nat.ne_of_gt going)]
    exact already
  let counted := { beginStreak s with failures := satSucc (beginStreak s).failures }
  rcases attributeStreak_cases cfg source counted with ⟨already, same⟩ | ⟨fresh, first, path, same⟩ |
    ⟨fresh, first, own, same⟩
  · have result : judge cfg source s = counted := same
    rw [result]
    obtain ⟨before, going⟩ := attributed already
    refine ⟨⟨bounded, counting, fun _ => positive, fun _ none => ?_, fun distinct _ name => ?_⟩, opened, probing, more,
      fun _ => already⟩
    · cases none.symm.trans already
    · obtain ⟨other, member, differs⟩ := held.mixed distinct before name
      exact ⟨other, List.mem_cons_of_mem _ member, differs⟩
  · have result : judge cfg source s =
        { counted with firstSource := first, attributed := true, lastAttributed := counted.epoch } := same
    rw [result]
    refine ⟨⟨bounded, counting, fun _ => positive, nofun, fun distinct _ name => ?_⟩, opened, probing, more,
      fun _ => rfl⟩
    exact blame_mixed held distinct fresh path name
  · have result : judge cfg source s = { counted with firstSource := first } := same
    rw [result]
    obtain ⟨named, remembered, before⟩ := blame_false own
    have unattributed : (beginStreak s).attributed = false := fresh
    refine ⟨⟨bounded, counting, fun _ => positive, fun distinct _ other member => ?_, fun _ now => ?_⟩, opened, probing,
      more, fun already => ?_⟩
    · rcases List.mem_cons.mp member with rfl | member
      · exact ⟨remembered.symm, named⟩
      · rcases plain unattributed with ⟨-, empty⟩ | ⟨still, first, -⟩
        · rw [empty] at member
          exact absurd member List.not_mem_nil
        · obtain ⟨equal, known⟩ := held.alone distinct still other member
          refine ⟨?_, known⟩
          rcases before with nothing | same
          · rw [equal, ← first, show (beginStreak s).firstSource = none from nothing] at known
            cases known
          · rw [equal, ← first, show (beginStreak s).firstSource = source from same]
            exact remembered.symm
    · cases unattributed.symm.trans now
    · cases unattributed.symm.trans (kept already)

/-- An open interval begins, or goes on, only for an attributed streak of the threshold. -/
theorem trip_opened (now : Instant) (opened : s.openUntil.isSome → s.attributed = true ∧ cfg.threshold ≤ s.failures) :
    (trip cfg now s).1.openUntil.isSome →
      (trip cfg now s).1.attributed = true ∧ cfg.threshold ≤ (trip cfg now s).1.failures := by
  unfold trip
  split
  · rename_i reached
    exact fun _ => reached
  · exact opened

theorem trip_streak (now : Instant) (held : Streak cfg s streak) : Streak cfg (trip cfg now s).1 streak := by
  unfold trip
  split
  · exact ⟨held.bounded, held.counting, held.attributed, held.alone, held.mixed⟩
  · exact held

theorem trip_probing (cfg : Settings) (now : Instant) (s : State) : (trip cfg now s).1.probing = s.probing := by
  unfold trip
  split <;> rfl

theorem Inv.fault (inv : Inv cfg w) (source : Option String) :
    Inv cfg { w with state := (recordFault cfg w.clock source w.state).1, streak := source :: w.streak } := by
  obtain ⟨streak, opened, probing, more, still⟩ := judge_streak source inv.streak
  rw [recordFault_eq]
  refine ⟨trip_streak w.clock streak, trip_opened w.clock fun open_ => ?_, ?_⟩
  · rw [opened] at open_
    obtain ⟨attributed, reached⟩ := inv.opened open_
    exact ⟨still attributed, Nat.le_trans reached more⟩
  · change Permits.Counted (trip cfg w.clock (judge cfg source w.state)).1.probing w.tickets
    rw [trip_probing, probing]
    exact inv.counted

theorem Inv.healthy (inv : Inv cfg w) (source : Option String) :
    Inv cfg { w with state := (record cfg w.clock source .healthy w.state).1, streak := [] } := by
  refine ⟨⟨Nat.zero_le _, ?_, nofun, ?_, nofun⟩, nofun, inv.counted⟩
  · exact ⟨fun _ => rfl, fun _ => rfl⟩
  · exact fun _ _ _ member => absurd member List.not_mem_nil

/-- What an admission is: an ordinary ticket while closed, else the only probe after the interval. -/
theorem admitCall_cases {now : Instant} {answer : State × Bool} (admitted : admitCall now s = some answer) :
    s.openUntil = none ∧ answer = (s, false) ∨
      ∃ limit, s.openUntil = some limit ∧ limit ≤ now ∧ s.probing = false ∧
        answer = ({ s with probing := true }, true) := by
  unfold admitCall at admitted
  cases opened : s.openUntil with
  | none =>
    rw [opened] at admitted
    exact Or.inl ⟨rfl, (Option.some.inj admitted).symm⟩
  | some limit =>
    rw [opened] at admitted
    simp only at admitted
    split at admitted
    · cases admitted
    · rename_i free
      obtain ⟨past, idle⟩ := not_or.mp free
      exact Or.inr ⟨limit, rfl, Nat.le_of_not_lt past, Bool.eq_false_iff.mpr idle, (Option.some.inj admitted).symm⟩

theorem step_inv {l : Label} (inv : Inv cfg w) (taken : step cfg w l = some x) : Inv cfg x := by
  cases l with
  | tick duration =>
    cases taken
    exact ⟨inv.streak, inv.opened, inv.counted⟩
  | record source outcome =>
    cases outcome with
    | healthy =>
      cases taken
      exact inv.healthy source
    | fault code =>
      cases taken
      exact inv.fault source
  | admitCall =>
    obtain ⟨answer, admitted, rfl⟩ := Option.map_eq_some_iff.mp taken
    rcases admitCall_cases admitted with ⟨-, rfl⟩ | ⟨limit, -, -, idle, rfl⟩
    · exact ⟨inv.streak, inv.opened, inv.counted.ordinary⟩
    · have counted := inv.counted
      rw [idle] at counted
      have streak := inv.streak
      exact ⟨⟨streak.bounded, streak.counting, streak.attributed, streak.alone, streak.mixed⟩, inv.opened,
        counted.probe⟩
  | dropTicket index =>
    obtain ⟨probe, found, rfl⟩ := Option.map_eq_some_iff.mp taken
    have counted := inv.counted.drop found
    have streak := inv.streak
    cases probe with
    | false => exact ⟨streak, inv.opened, counted⟩
    | true =>
      exact ⟨⟨streak.bounded, streak.counting, streak.attributed, streak.alone, streak.mixed⟩, inv.opened, counted⟩

/-- In every run there is at most one live probe and the flag stands for it; only an attributed streak
of the threshold is open; an open path admits nothing before its interval ends and then one probe
at a time; a healthy outcome closes it; and one account's faults alone never open it. -/
theorem path_breaker {w : World} (reach : Run.Reach (step cfg) (fun _ _ => True) {} w) :
    (w.tickets.count true ≤ 1 ∧ (w.state.probing = true ↔ w.tickets.count true = 1)) ∧
      (w.state.openUntil.isSome → w.state.attributed = true ∧ cfg.threshold ≤ w.state.failures) ∧
      (w.state.attributed = true → 0 < w.state.failures) ∧
      (∀ limit, w.state.openUntil = some limit → w.clock < limit → step cfg w .admitCall = none) ∧
      (∀ x, w.state.openUntil.isSome → step cfg w .admitCall = some x →
        w.tickets.count true = 0 ∧ x.tickets = true :: w.tickets) ∧
      (∀ source x, step cfg w (.record source .healthy) = some x →
        x.state.openUntil = none ∧ x.state.failures = 0 ∧ x.state.attributed = false ∧ x.streak = []) ∧
      (cfg.distinctSources = true → ∀ name, (∀ source ∈ w.streak, source = some name) →
        w.state.openUntil = none) := by
  have inv : Inv cfg w := by
    refine reach.invariant ⟨⟨Nat.zero_le _, ?_, nofun, ?_, nofun⟩, nofun, Permits.Counted.none⟩ ?_
    · exact ⟨fun _ => rfl, fun _ => rfl⟩
    · exact fun _ _ _ member => absurd member List.not_mem_nil
    · exact fun _ _ _ inv _ taken => step_inv inv taken
  refine ⟨inv.counted.unique, inv.opened, inv.streak.attributed, fun limit opened early => ?_, fun x opened taken => ?_,
    fun source x taken => ?_, fun distinct name same => ?_⟩
  · simp only [step, admitCall, opened, early, true_or, if_true, Option.map_none]
  · obtain ⟨answer, admitted, rfl⟩ := Option.map_eq_some_iff.mp taken
    rcases admitCall_cases admitted with ⟨closed, -⟩ | ⟨limit, -, -, idle, rfl⟩
    · rw [closed] at opened
      cases opened
    · have counted := inv.counted
      rw [idle] at counted
      exact ⟨counted, rfl⟩
  · cases taken
    exact ⟨rfl, rfl, rfl, rfl⟩
  · refine Option.not_isSome_iff_eq_none.mp fun opened => ?_
    obtain ⟨other, member, differs⟩ := inv.streak.mixed distinct (inv.opened opened).1 name
    exact differs (same other member)

/-- A second account opens the path; its probe is the only admission after the interval, and the
path closes while the probe is live. -/
def secondAccount : List Label :=
  [.admitCall, .record (some "a") (.fault "upstream_timeout"), .record (some "b") (.fault "upstream_timeout"),
    .tick (fromSecs 5), .admitCall]

theorem path_breaker_probe :
    ∃ w, Run.Reach (step (new {} true)) (fun _ _ => True) {} w ∧ w.tickets = [true, false] ∧
      w.state.probing = true ∧ step (new {} true) w .admitCall = none := by
  have runs : (Run.exec (step (new {} true)) {} secondAccount).map (·.tickets) = some [true, false] := by
    decide +kernel
  obtain ⟨w, run, tickets⟩ := Option.map_eq_some_iff.mp runs
  have reach := Run.reach_of_exec run
  obtain ⟨⟨-, probing⟩, -, -, -, alone, -⟩ := path_breaker reach
  have one : w.tickets.count true = 1 := by
    rw [tickets]
    rfl
  have opened : (Run.exec (step (new {} true)) {} secondAccount).map (·.state.openUntil.isSome) = some true := by
    decide +kernel
  rw [run, Option.map_some, Option.some.injEq] at opened
  refine ⟨w, reach, tickets, probing.mpr one, Option.eq_none_iff_forall_ne_some.mpr fun x taken => ?_⟩
  have idle := (alone x opened taken).1
  omega

end SiriusProxy.PathHealth.Breaker
