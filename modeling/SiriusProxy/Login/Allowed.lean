import SiriusProxy.Login.Budget

namespace SiriusProxy.Budget

variable {config : LoginConfig} {clock now : Nat} {made attempts : List Nat} {s : LoginState}

/-- What the settings ask of attempt times, newest first: any two are the interval apart, and no
window of 24 hours holds more than the cap. -/
def Keeps (config : LoginConfig) (times : List Instant) : Prop :=
  Window.Spaced (fromSecs config.loginMinIntervalSeconds) times ∧
    ∀ start, (Window.inWindow day start times).length ≤ config.maxLoginsPerDay

/-- A state whose attempts were all made when `next_allowed` had nothing against them. `made` is
their history, newest first; `clock` is when the state was last asked or used. -/
inductive Built (config : LoginConfig) : Instant → List Instant → LoginState → Prop
  | empty {s : LoginState} (fresh : s.attempts = []) : Built config 0 [] s
  | attempt {clock now : Instant} {made : List Instant} {s : LoginState} (built : Built config clock made s)
      (order : clock ≤ now) (passes : (s.nextAllowed now config).2 = none) :
      Built config now (now :: made) { s with attempts := s.attempts ++ [now] }
  | asked {clock now : Instant} {made : List Instant} {s : LoginState} (built : Built config clock made s)
      (order : clock ≤ now) : Built config now made (s.nextAllowed now config).1
  | other {clock : Instant} {made : List Instant} {s t : LoginState} (built : Built config clock made s)
      (same : t.attempts = s.attempts) : Built config clock made t

/-- The attempts are the recent part of a history that keeps the settings. -/
structure Kept (config : LoginConfig) (clock : Instant) (made attempts : List Instant) : Prop where
  spaced : Window.Spaced (fromSecs config.loginMinIntervalSeconds) made
  capped : Window.Capped day config.maxLoginsPerDay made
  recent : Recent clock made attempts
  past : ∀ t ∈ made, t ≤ clock

theorem Kept.later (kept : Kept config clock made attempts) (order : clock ≤ now) : Kept config now made attempts :=
  ⟨kept.spaced, kept.capped, kept.recent.later order, fun t member => Nat.le_trans (kept.past t member) order⟩

/-- A history that was built by allowed attempts keeps the settings at every later time. -/
theorem Built.kept (valid : config.valid = true) (built : Built config clock made s) :
    Kept config clock made s.attempts := by
  induction built with
  | empty fresh =>
    rw [fresh]
    exact ⟨List.Pairwise.nil, trivial, ⟨[], rfl, fun t member => absurd member List.not_mem_nil⟩,
      fun t member => absurd member List.not_mem_nil⟩
  | attempt _ order passes ih =>
    have kept := ih.later order
    obtain ⟨gap, few⟩ := admits valid kept.spaced kept.recent passes
    refine ⟨List.pairwise_cons.mpr ⟨gap, kept.spaced⟩, ⟨few, kept.capped⟩, kept.recent.snoc _, fun t member => ?_⟩
    rcases List.mem_cons.mp member with rfl | old
    · exact Nat.le_refl _
    · exact kept.past t old
  | asked _ order ih =>
    have kept := ih.later order
    exact ⟨kept.spaced, kept.capped, kept.recent.dropOld (Nat.le_refl _), kept.past⟩
  | other _ same ih =>
    rw [same]
    exact ih

/-- The first time from which `ready` holds, or none when it holds already. -/
def FirstReady (ready : Nat → Prop) (now : Nat) : Option Nat → Prop
  | none => ∀ t, now ≤ t → ready t
  | some due => now < due ∧ ∀ t, now ≤ t → (ready t ↔ due ≤ t)

/-- Two conditions hold from the later of their times on. -/
theorem FirstReady.max {ready steady : Nat → Prop} {first second : Option Nat}
    (early : FirstReady ready now first) (late : FirstReady steady now second) :
    FirstReady (fun t => ready t ∧ steady t) now (first.toList ++ second.toList).max? := by
  cases first with
  | none =>
    cases second with
    | none => exact fun t order => ⟨early t order, late t order⟩
    | some due => exact ⟨late.1, fun t order => ⟨fun both => (late.2 t order).mp both.2,
        fun past => ⟨early t order, (late.2 t order).mpr past⟩⟩⟩
  | some due =>
    cases second with
    | none => exact ⟨early.1, fun t order => ⟨fun both => (early.2 t order).mp both.1,
        fun past => ⟨(early.2 t order).mpr past, late t order⟩⟩⟩
    | some other =>
      refine ⟨Nat.lt_of_lt_of_le early.1 (Nat.le_max_left due other), fun t order => ?_⟩
      change ready t ∧ steady t ↔ Nat.max due other ≤ t
      rw [early.2 t order, late.2 t order]
      exact Nat.max_le.symm

/-- The times since the newest attempt. -/
def byInterval (now : Nat) (config : LoginConfig) (s : LoginState) : Option Nat :=
  ((s.prune now).attempts.getLast?.map (· + fromSecs config.loginMinIntervalSeconds)).filter fun t => decide (now < t)

/-- When the oldest of a full day of attempts leaves the window. -/
def byCap (now : Nat) (config : LoginConfig) (s : LoginState) : Option Nat :=
  if config.maxLoginsPerDay ≤ (s.prune now).attempts.length then (s.prune now).attempts.head?.map (· + day) else none

theorem nextAllowed_eq : (s.nextAllowed now config).2 =
    ((byInterval now config s).toList ++ (byCap now config s).toList).max? := rfl

/-- Pruned attempts are the part of the history that still counts. -/
theorem Kept.pruned (kept : Kept config now made s.attempts) :
    (s.prune now).attempts = (made.filter fun t => decide (now < t + day)).reverse := by
  have sorted := ascending kept.spaced kept.recent
  obtain ⟨old, parts, past⟩ := kept.recent
  have gone : (old.filter fun t => decide (now < t + day)) = [] := by
    refine List.filter_eq_nil_iff.mpr fun t member counted => ?_
    exact absurd (of_decide_eq_true counted) (Nat.not_lt_of_le (past t member))
  calc (s.prune now).attempts
      = s.attempts.filter fun t => decide (now < t + day) := dropOld_eq_filter now sorted
    _ = (made.filter fun t => decide (now < t + day)).reverse := by
        rw [parts, List.filter_append, gone, List.append_nil, List.filter_reverse, List.reverse_reverse]

theorem interval_le_day (valid : config.valid = true) : fromSecs config.loginMinIntervalSeconds ≤ day := by
  simp only [LoginConfig.valid, Bool.and_eq_true, decide_eq_true_eq] at valid
  exact Nat.mul_le_mul_right _ valid.1

theorem cap_pos (valid : config.valid = true) : 0 < config.maxLoginsPerDay := by
  simp only [LoginConfig.valid, Bool.and_eq_true, decide_eq_true_eq] at valid
  exact valid.2.1

/-- The newest attempt alone decides the interval; once pruned it is too old to matter. -/
theorem Kept.byInterval_ready (valid : config.valid = true) (kept : Kept config now made s.attempts) :
    FirstReady (fun t => ∀ m ∈ made, m + fromSecs config.loginMinIntervalSeconds ≤ t) now (byInterval now config s) := by
  unfold byInterval
  rw [kept.pruned, List.getLast?_reverse]
  have spaced := kept.spaced
  cases made with
  | nil => exact fun t _ m member => absurd member List.not_mem_nil
  | cons newest rest =>
    have apart := (List.pairwise_cons.mp spaced).1
    have ready : ∀ t, (∀ m ∈ newest :: rest, m + fromSecs config.loginMinIntervalSeconds ≤ t) ↔
        newest + fromSecs config.loginMinIntervalSeconds ≤ t := by
      intro t
      constructor
      · exact fun all => all newest List.mem_cons_self
      · intro last m member
        rcases List.mem_cons.mp member with rfl | old
        · exact last
        · have order := apart m old
          omega
    by_cases counted : now < newest + day
    · rw [List.filter_cons, if_pos (decide_eq_true counted), List.head?_cons, Option.map_some, Option.filter_some]
      split_ifs with pending
      · exact ⟨of_decide_eq_true pending, fun t _ => ready t⟩
      · intro t order
        have reached : ¬ now < newest + fromSecs config.loginMinIntervalSeconds := fun less =>
          pending (decide_eq_true less)
        exact (ready t).mpr (by omega)
    · have none_left : ((newest :: rest).filter fun t => decide (now < t + day)) = [] := by
        refine List.filter_eq_nil_iff.mpr fun m member recent => ?_
        have young := of_decide_eq_true recent
        rcases List.mem_cons.mp member with rfl | old
        · exact counted young
        · have order := apart m old
          omega
      rw [none_left]
      have short := interval_le_day valid
      exact fun t order => (ready t).mpr (by omega)

/-- The oldest attempt that counts alone decides the cap: there are never more than the cap. -/
theorem Kept.byCap_ready (valid : config.valid = true) (kept : Kept config now made s.attempts) :
    FirstReady (fun t => (made.filter fun m => decide (t < m + day)).length < config.maxLoginsPerDay) now
      (byCap now config s) := by
  have few := kept.capped.recent_le kept.past
  have later : ∀ t, now ≤ t → (made.filter fun m => decide (t < m + day)) =
      (made.filter fun m => decide (now < m + day)).filter fun m => decide (t < m + day) := by
    intro t order
    rw [List.filter_filter]
    refine List.filter_congr fun m _ => ?_
    rw [← Bool.decide_and]
    exact decide_eq_decide.mpr (by omega)
  have descending : (made.filter fun m => decide (now < m + day)).Pairwise fun later earlier =>
      earlier + fromSecs config.loginMinIntervalSeconds ≤ later := List.Pairwise.filter _ kept.spaced
  have member_counts : ∀ m ∈ made.filter fun m => decide (now < m + day), now < m + day :=
    fun m member => of_decide_eq_true (List.mem_filter.mp member).2
  unfold byCap
  rw [kept.pruned, List.length_reverse, List.head?_reverse]
  generalize (made.filter fun m => decide (now < m + day)) = counted at few later descending member_counts ⊢
  have positive := cap_pos valid
  split_ifs with full
  · rcases List.eq_nil_or_concat counted with rfl | ⟨front, oldest, rfl⟩
    · rw [List.length_nil] at full
      omega
    · rw [List.concat_eq_append] at *
      rw [List.getLast?_concat, Option.map_some]
      refine ⟨member_counts oldest List.mem_concat_self, fun t order => ?_⟩
      change (made.filter fun m => decide (t < m + day)).length < _ ↔ _
      rw [later t order]
      by_cases left : oldest + day ≤ t
      · refine iff_of_true ?_ left
        have gone : ¬ decide (t < oldest + day) = true := fun recent =>
          Nat.not_lt_of_le left (of_decide_eq_true recent)
        have shorter : ((front ++ [oldest]).filter fun m => decide (t < m + day)).length < (front ++ [oldest]).length :=
          List.length_filter_lt_length_iff_exists.mpr ⟨oldest, List.mem_concat_self, gone⟩
        exact Nat.lt_of_lt_of_le shorter few
      · refine iff_of_false ?_ left
        rw [List.filter_eq_self.mpr fun m member => ?_]
        · exact Nat.not_lt_of_le full
        · rcases List.mem_append.mp member with newer | own
          · have gap := (List.pairwise_append.mp descending).2.2 m newer oldest List.mem_cons_self
            exact decide_eq_true (by omega)
          · rw [List.mem_singleton.mp own]
            exact decide_eq_true (Nat.lt_of_not_le left)
  · intro t order
    rw [later t order]
    exact Nat.lt_of_le_of_lt (List.length_filter_le _ _) (Nat.lt_of_not_le full)

/-- One more attempt keeps the settings if it keeps the interval and the window that ends with it. -/
theorem Kept.keeps_cons (kept : Kept config now made attempts) (t : Nat) : Keeps config (t :: made) ↔
    (∀ m ∈ made, m + fromSecs config.loginMinIntervalSeconds ≤ t) ∧
      (made.filter fun m => decide (t < m + day)).length < config.maxLoginsPerDay := by
  constructor
  · rintro ⟨spaced, few⟩
    have capped := Window.Capped.of_inWindow (by decide) spaced few
    exact ⟨(List.pairwise_cons.mp spaced).1, capped.1⟩
  · rintro ⟨apart, few⟩
    have capped : Window.Capped day config.maxLoginsPerDay (t :: made) := ⟨few, kept.capped⟩
    exact ⟨List.pairwise_cons.mpr ⟨apart, kept.spaced⟩, capped.inWindow_le⟩

/-- The answer of `next_allowed` is the first time from which one more attempt keeps the settings. -/
theorem Kept.nextAllowed_ready (valid : config.valid = true) (kept : Kept config now made s.attempts) :
    FirstReady (fun t => Keeps config (t :: made)) now (s.nextAllowed now config).2 := by
  have both := (kept.byInterval_ready valid).max (kept.byCap_ready valid)
  rw [nextAllowed_eq]
  have same : (fun t => Keeps config (t :: made)) = fun t =>
      (∀ m ∈ made, m + fromSecs config.loginMinIntervalSeconds ≤ t) ∧
        (made.filter fun m => decide (t < m + day)).length < config.maxLoginsPerDay :=
    funext fun t => propext (kept.keeps_cons t)
  rw [same]
  exact both

/-- With a history that keeps the settings, nothing stands against an attempt exactly if the history with it keeps
them too. -/
theorem Kept.none_iff (valid : config.valid = true) (kept : Kept config now made s.attempts) :
    (s.nextAllowed now config).2 = none ↔ Keeps config (now :: made) := by
  have first := kept.nextAllowed_ready valid
  cases answer : (s.nextAllowed now config).2 with
  | none =>
    rw [answer] at first
    exact iff_of_true rfl (first now (Nat.le_refl now))
  | some due =>
    rw [answer] at first
    refine iff_of_false (Option.some_ne_none due) fun keeps => ?_
    exact absurd ((first.2 now (Nat.le_refl now)).mp keeps) (Nat.not_le_of_lt first.1)

/-- A login asks first and appends to the pruned attempts. -/
theorem Built.login (valid : config.valid = true) (built : Built config clock made s) (order : clock ≤ now)
    (passes : (s.nextAllowed now config).2 = none) :
    Built config now (now :: made) { (s.nextAllowed now config).1 with
      attempts := (s.nextAllowed now config).1.attempts ++ [now] } := by
  have asked := built.asked order
  have keeps := (((built.kept valid).later order).none_iff valid).mp passes
  exact .attempt asked (Nat.le_refl now) (((asked.kept valid).none_iff valid).mpr keeps)

/-- `next_allowed` is none exactly when an attempt now keeps the interval and the cap, otherwise it
is the least later time at which one does; and pruning removes exactly what is a day old. -/
theorem next_allowed_exact (valid : config.valid = true) (built : Built config clock made s) (order : clock ≤ now) :
    ((s.nextAllowed now config).2 = none ↔ Keeps config (now :: made)) ∧
      (∀ due, (s.nextAllowed now config).2 = some due → now < due ∧ Keeps config (due :: made) ∧
        ∀ t, now ≤ t → t < due → ¬ Keeps config (t :: made)) ∧
      (s.prune now).attempts = s.attempts.filter fun t => !decide (day ≤ now - t) := by
  have kept := (built.kept valid).later order
  refine ⟨kept.none_iff valid, ?_, ?_⟩
  · intro due answer
    have first := kept.nextAllowed_ready valid
    rw [answer] at first
    refine ⟨first.1, (first.2 due (Nat.le_of_lt first.1)).mpr (Nat.le_refl due), fun t from_now early keeps => ?_⟩
    exact absurd ((first.2 t from_now).mp keeps) (Nat.not_le_of_lt early)
  · rw [LoginState.prune, dropOld_eq_filter now (ascending kept.spaced kept.recent)]
    refine List.filter_congr fun t _ => ?_
    rw [← decide_not]
    exact decide_eq_decide.mpr ((not_congr (day_old t now)).trans Nat.not_le).symm

/-- One second after the first login the next one has to wait for the interval. -/
theorem next_allowed_exact_interval :
    (({ attempts := [0] } : LoginState).nextAllowed (fromSecs 1) {}).2 = some (fromSecs 300) ∧
      Keeps {} [fromSecs 300, 0] ∧ ¬ Keeps {} [fromSecs 299, 0] := by
  have built : Built {} 0 [0] { attempts := [0] } := .attempt (.empty (s := {}) rfl) (Nat.le_refl 0) rfl
  have answer : (({ attempts := [0] } : LoginState).nextAllowed (fromSecs 1) {}).2 = some (fromSecs 300) := by decide
  have order : 0 ≤ fromSecs 1 := by decide
  have least := (next_allowed_exact (by decide) built order).2.1 _ answer
  exact ⟨answer, least.2.1, least.2.2 (fromSecs 299) (by decide) (by decide)⟩

end SiriusProxy.Budget
