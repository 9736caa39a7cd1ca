import SiriusProxy.Lib.Permits
import SiriusProxy.Lib.Run
import SiriusProxy.Routing.Router

namespace SiriusProxy.Routing

namespace Breaker

/-- A target and the calls that have a permit for it, each listed with whether it is a probe. -/
structure World where
  clock : Instant := 0
  health : Health := {}
  permits : List Bool := []

inductive Label where
  | tick (duration : Nat)
  | admitCall
  | finish (index : Nat) (failed : Bool)
  | drop (index : Nat)

def World.admitted (w : World) (answer : Bool × Health) : World :=
  { w with health := answer.2, permits := answer.1 :: w.permits }

def World.dropped (w : World) (index : Nat) (probe : Bool) : World :=
  { w with health := Permit.drop probe w.health, permits := w.permits.eraseIdx index }

def step (config : Config) (w : World) : Label → Option World
  | .tick duration => some { w with clock := w.clock + duration }
  | .admitCall => (w.health.admitCall w.clock).map w.admitted
  | .finish index failed =>
    w.permits[index]?.map fun _ => { w with health := Permit.finish config w.clock failed w.health }
  | .drop index => w.permits[index]?.map (w.dropped index)

structure Inv (config : Config) (w : World) : Prop where
  bounded : w.health.failures ≤ u32Max
  opened : w.health.openUntil.isSome → config.failureThreshold ≤ w.health.failures
  counted : Permits.Counted w.health.probing w.permits

variable {config : Config} {w x : World} {h : Health}

/-- An admission is ordinary while the target is closed, else the only probe after the cooldown. -/
theorem admitCall_cases {now : Instant} {answer : Bool × Health} (admitted : h.admitCall now = some answer) :
    h.openUntil = none ∧ answer = (false, h) ∨
      ∃ limit, h.openUntil = some limit ∧ limit ≤ now ∧ h.probing = false ∧
        answer = (true, { h with probing := true }) := by
  unfold Health.admitCall at admitted
  cases opened : h.openUntil with
  | none =>
    rw [opened] at admitted
    exact Or.inl ⟨rfl, (Option.some.inj admitted).symm⟩
  | some limit =>
    rw [opened] at admitted
    simp only at admitted
    split at admitted
    · cases admitted
    · rename_i free
      obtain ⟨past, idle⟩ := not_or.mp free
      exact Or.inr ⟨limit, rfl, Nat.le_of_not_lt past, Bool.eq_false_iff.mpr idle, (Option.some.inj admitted).symm⟩

/-- A finish touches the failures and the cooldown, never the probe. -/
theorem finish_frame (config : Config) (now : Instant) (failed : Bool) (bounded : h.failures ≤ u32Max)
    (opened : h.openUntil.isSome → config.failureThreshold ≤ h.failures) :
    (Permit.finish config now failed h).probing = h.probing ∧ (Permit.finish config now failed h).failures ≤ u32Max ∧
      ((Permit.finish config now failed h).openUntil.isSome →
        config.failureThreshold ≤ (Permit.finish config now failed h).failures) := by
  unfold Permit.finish
  cases failed with
  | false => exact ⟨rfl, Nat.zero_le _, nofun⟩
  | true =>
    simp only [if_true]
    split
    · rename_i reached
      exact ⟨rfl, satSucc_le _, fun _ => reached⟩
    · refine ⟨rfl, satSucc_le _, fun open_ => ?_⟩
      exact Nat.le_trans (opened open_) (le_satSucc (Nat.le_succ _) bounded)

theorem step_inv {l : Label} (inv : Inv config w) (taken : step config w l = some x) : Inv config x := by
  cases l with
  | tick duration =>
    cases taken
    exact ⟨inv.bounded, inv.opened, inv.counted⟩
  | admitCall =>
    obtain ⟨answer, admitted, rfl⟩ := Option.map_eq_some_iff.mp taken
    rcases admitCall_cases admitted with ⟨-, rfl⟩ | ⟨limit, -, -, idle, rfl⟩
    · exact ⟨inv.bounded, inv.opened, inv.counted.ordinary⟩
    · have counted := inv.counted
      rw [idle] at counted
      exact ⟨inv.bounded, inv.opened, counted.probe⟩
  | finish index failed =>
    obtain ⟨probe, -, rfl⟩ := Option.map_eq_some_iff.mp taken
    obtain ⟨probing, bounded, opened⟩ := finish_frame config w.clock failed inv.bounded inv.opened
    refine ⟨bounded, opened, ?_⟩
    change Permits.Counted (Permit.finish config w.clock failed w.health).probing w.permits
    rw [probing]
    exact inv.counted
  | drop index =>
    obtain ⟨probe, found, rfl⟩ := Option.map_eq_some_iff.mp taken
    have counted := inv.counted.drop found
    cases probe with
    | false => exact ⟨inv.bounded, inv.opened, counted⟩
    | true => exact ⟨inv.bounded, inv.opened, counted⟩

/-- In every run there is at most one live probe permit and the flag stands for it; the cooldown is
set only at the threshold; nothing is admitted during it; a success closes the breaker; and without
a live probe the target is admitted again after the cooldown. -/
theorem node_breaker {w : World} (reach : Run.Reach (step config) (fun _ _ => True) {} w) :
    (w.permits.count true ≤ 1 ∧ (w.health.probing = true ↔ w.permits.count true = 1)) ∧
      (w.health.openUntil.isSome → config.failureThreshold ≤ w.health.failures) ∧
      (∀ limit, w.health.openUntil = some limit → w.clock < limit → step config w .admitCall = none) ∧
      (∀ index x, step config w (.finish index false) = some x →
        x.health.openUntil = none ∧ x.health.failures = 0) ∧
      (w.permits.count true = 0 → ∀ now, (∀ limit, w.health.openUntil = some limit → limit ≤ now) →
        (w.health.admitCall now).isSome) := by
  have inv : Inv config w := by
    refine reach.invariant ⟨Nat.zero_le _, nofun, Permits.Counted.none⟩ ?_
    exact fun _ _ _ inv _ taken => step_inv inv taken
  refine ⟨inv.counted.unique, inv.opened, fun limit opened early => ?_, fun index x taken => ?_,
    fun none_live now cooled => ?_⟩
  · simp only [step, Health.admitCall, opened, early, true_or, if_true, Option.map_none]
  · obtain ⟨probe, -, rfl⟩ := Option.map_eq_some_iff.mp taken
    exact ⟨rfl, rfl⟩
  · have idle : w.health.probing = false := by
      refine Bool.eq_false_iff.mpr fun probing => ?_
      have one := (inv.counted.unique.2).mp probing
      omega
    unfold Health.admitCall
    cases opened : w.health.openUntil with
    | none => rfl
    | some limit =>
      have past : ¬ (now < limit ∨ w.health.probing = true) := by
        rw [idle]
        exact not_or.mpr ⟨Nat.not_lt_of_le (cooled limit opened), Bool.false_ne_true⟩
      simp only [past, if_false, Option.isSome_some]

/-- An ordinary permit from before the cooldown succeeds while the probe is live; the probe is then
dropped without a finish. -/
def lateSuccess : List Label :=
  [.admitCall, .admitCall, .finish 0 true, .finish 0 true, .finish 0 true, .tick 30000000000, .admitCall,
    .finish 1 false, .drop 0]

theorem node_breaker_late_success :
    ∃ w, Run.Reach (step {}) (fun _ _ => True) {} w ∧ w.permits = [false, false] ∧ w.health.probing = false ∧
      (w.health.admitCall w.clock).isSome := by
  have runs : (Run.exec (step {}) {} lateSuccess).map (fun w => (w.permits, w.health.openUntil)) =
      some ([false, false], none) := by decide +kernel
  obtain ⟨w, run, facts⟩ := Option.map_eq_some_iff.mp runs
  obtain ⟨permits, closed⟩ := Prod.mk.inj facts
  have reach := Run.reach_of_exec run
  obtain ⟨⟨-, probing⟩, -, -, -, again⟩ := node_breaker reach
  have idle : w.permits.count true = 0 := by
    rw [permits]
    rfl
  refine ⟨w, reach, permits, Bool.eq_false_iff.mpr fun set => ?_, again idle w.clock fun limit opened => ?_⟩
  · have one := probing.mp set
    omega
  · rw [closed] at opened
    cases opened

end Breaker

end SiriusProxy.Routing
