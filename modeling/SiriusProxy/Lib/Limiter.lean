import Mathlib.Data.Nat.Basic
import Mathlib.Logic.Relation

namespace Limiter
open Relation
variable {K : Type}

/-- A costly source is asked for the key in demand, by one caller at a time, and the end of the last attempt
is remembered. The counters are of attempts, of changes of the key and of attempts that left no memory. -/
structure State (K : Type) where
  now : Nat
  key : Option K
  memo : Option (K × Nat)
  busy : Option K
  begun : Nat
  turns : Nat
  losses : Nat

inductive Step (ttl : Nat) : State K → State K → Prop
  | tick {s : State K} {time : Nat} (later : s.now ≤ time) : Step ttl s { s with now := time }
  | turn {s : State K} {k : K} (other : s.key ≠ some k) : Step ttl s { s with key := some k, turns := s.turns + 1 }
  | enter {s : State K} {k : K} (free : s.busy = none) (demanded : s.key = some k)
      (old : ∀ time, s.memo = some (k, time) → time + ttl ≤ s.now) :
      Step ttl s { s with busy := some k, begun := s.begun + 1 }
  | settle {s : State K} {k : K} (busy : s.busy = some k) : Step ttl s { s with busy := none, memo := some (k, s.now) }
  | lose {s : State K} {k : K} (busy : s.busy = some k) : Step ttl s { s with busy := none, losses := s.losses + 1 }

/-- The attempts since `start` fit into `q` whole intervals, but for those that changes and losses account
for; `tight` where the next attempt for the same key has to wait for the memory to expire. -/
structure Paced (ttl : Nat) (start s : State K) (k : K) (last q : Nat) : Prop where
  spread : start.now + q * ttl ≤ last
  past : last ≤ s.now
  busy : s.busy = none ∨ s.busy = some k
  few : s.begun + start.turns + start.losses ≤ start.begun + 1 + q + s.turns + s.losses
  tight : s.key = some k ∧ (s.busy = some k ∨ ∃ time, s.memo = some (k, time) ∧ last ≤ time) ∨
    s.begun + 1 + start.turns + start.losses ≤ start.begun + 1 + q + s.turns + s.losses

/-- What a run from a state without an attempt under way keeps. -/
structure Fair (ttl : Nat) (start s : State K) : Prop where
  now : start.now ≤ s.now
  turns : start.turns ≤ s.turns
  losses : start.losses ≤ s.losses
  paced : s.busy = none ∧ s.begun = start.begun ∨ ∃ k last q, Paced ttl start s k last q

variable {ttl : Nat} {start s t : State K}

theorem Paced.enter {k key : K} {last q : Nat} (paced : Paced ttl start s k last q) (demanded : s.key = some key)
    (free : s.busy = none) (old : ∀ time, s.memo = some (key, time) → time + ttl ≤ s.now) :
    ∃ q, Paced ttl start { s with busy := some key, begun := s.begun + 1 } key s.now q := by
  have spread := paced.spread
  have past := paced.past
  have few := paced.few
  rcases paced.tight with ⟨same, held⟩ | slack
  · cases demanded.symm.trans same
    rcases held with busy | ⟨time, memo, after⟩
    · cases free.symm.trans busy
    · have expired := old time memo
      refine ⟨q + 1, ?_, Nat.le_refl _, .inr rfl, ?_, .inl ⟨same, .inl rfl⟩⟩
      · rw [Nat.succ_mul]
        omega
      · dsimp only
        omega
  · refine ⟨q, Nat.le_trans spread past, Nat.le_refl _, .inr rfl, ?_, .inl ⟨demanded, .inl rfl⟩⟩
    dsimp only
    omega

theorem Fair.step (fair : Fair ttl start s) (step : Step ttl s t) : Fair ttl start t := by
  obtain ⟨now, turns, losses, paced⟩ := fair
  cases step with
  | tick later =>
    refine ⟨Nat.le_trans now later, turns, losses, paced.imp id ?_⟩
    rintro ⟨k, last, q, spread, past, busy, few, tight⟩
    exact ⟨k, last, q, spread, Nat.le_trans past later, busy, few, tight⟩
  | turn other =>
    refine ⟨now, Nat.le_succ_of_le turns, losses, paced.imp id ?_⟩
    rintro ⟨k, last, q, spread, past, busy, few, -⟩
    exact ⟨k, last, q, spread, past, busy, by dsimp only; omega, .inr (by dsimp only; omega)⟩
  | enter free demanded old =>
    refine ⟨now, turns, losses, .inr ?_⟩
    rcases paced with ⟨-, begun⟩ | ⟨k, last, q, paced⟩
    · refine ⟨_, s.now, 0, ?_, Nat.le_refl _, .inr rfl, ?_, .inl ⟨demanded, .inl rfl⟩⟩
      · rw [Nat.zero_mul]
        exact now
      · dsimp only
        omega
    · obtain ⟨q, next⟩ := paced.enter demanded free old
      exact ⟨_, s.now, q, next⟩
  | settle taken =>
    refine ⟨now, turns, losses, .inr ?_⟩
    rcases paced with ⟨free, -⟩ | ⟨k, last, q, spread, past, busy, few, tight⟩
    · cases free.symm.trans taken
    · refine ⟨k, last, q, spread, past, .inl rfl, few, tight.imp_left fun held => ⟨held.1, .inr ?_⟩⟩
      rcases busy with free | own
      · cases free.symm.trans taken
      · cases own.symm.trans taken
        exact ⟨s.now, rfl, past⟩
  | lose taken =>
    refine ⟨now, turns, Nat.le_succ_of_le losses, .inr ?_⟩
    rcases paced with ⟨free, -⟩ | ⟨k, last, q, spread, past, busy, few, tight⟩
    · cases free.symm.trans taken
    · exact ⟨k, last, q, spread, past, .inl rfl, by dsimp only; omega, .inr (by dsimp only; omega)⟩

/-- Over any period the attempts are one, one more for every whole interval, and those after a change of the
key or a loss. -/
theorem begun_le (positive : 0 < ttl) (free : start.busy = none) (run : ReflTransGen (Step ttl) start s) :
    s.begun - start.begun ≤
      1 + (s.now - start.now) / ttl + (s.turns - start.turns) + (s.losses - start.losses) := by
  have fair : Fair ttl start s := by
    induction run with
    | refl => exact ⟨Nat.le_refl _, Nat.le_refl _, Nat.le_refl _, .inl ⟨free, rfl⟩⟩
    | tail _ step ih => exact ih.step step
  have turns := fair.turns
  have losses := fair.losses
  rcases fair.paced with ⟨-, begun⟩ | ⟨k, last, q, paced⟩
  · generalize (s.now - start.now) / ttl = whole
    omega
  · have spread := paced.spread
    have past := paced.past
    have few := paced.few
    have fit : q ≤ (s.now - start.now) / ttl := (Nat.le_div_iff_mul_le positive).mpr (by omega)
    omega

end Limiter
