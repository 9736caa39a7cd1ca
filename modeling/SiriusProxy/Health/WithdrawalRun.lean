import Mathlib.Data.List.Count
import Mathlib.Order.Basic
import SiriusProxy.Health.Withdrawal

namespace SiriusProxy.Withdrawal

/-- A withdrawal of `n` takes `n` failures, as long as there are any. -/
theorem withdraw_length (streak n : Nat) (charged : List (Option Nat)) :
    (withdraw streak n charged).length = charged.length - n := by
  induction n generalizing charged with
  | zero => rfl
  | succ n ih =>
    rw [withdraw, ih]
    split
    · rename_i member
      rw [List.length_erase_of_mem member]
      omega
    · rw [List.length_tail]
      omega

/-- It adds none. -/
theorem withdraw_subset (streak n : Nat) (charged : List (Option Nat)) :
    withdraw streak n charged ⊆ charged := by
  induction n generalizing charged with
  | zero => exact List.Subset.refl _
  | succ n ih =>
    refine List.Subset.trans (ih _) ?_
    split
    · exact List.erase_subset
    · exact fun _ => List.mem_of_mem_tail

/-- Withdrawing at least as many failures as the streak has leaves none of its own. -/
theorem withdraw_clears {streak n : Nat} {charged : List (Option Nat)}
    (covered : charged.count (some streak) ≤ n) : some streak ∉ withdraw streak n charged := by
  induction n generalizing charged with
  | zero => exact List.count_eq_zero.mp (Nat.le_zero.mp covered)
  | succ n ih =>
    rw [withdraw]
    split
    · apply ih
      rw [List.count_erase_self]
      omega
    · rename_i absent
      exact fun member => absent (List.mem_of_mem_tail (withdraw_subset _ _ _ member))

/-- The failure counter is exactly the failures it contains, also when it saturates. -/
structure Counted (h : Health) (charged : List (Option Nat)) : Prop where
  length : charged.length = h.failures
  saturated : h.failures ≤ u32Max

namespace Counted
variable {h h' : Health} {charged : List (Option Nat)}

theorem frame (counted : Counted h charged) (failures : h'.failures = h.failures) : Counted h' charged :=
  ⟨counted.length.trans failures.symm, failures ▸ counted.saturated⟩

theorem add (counted : Counted h charged) (failures : h'.failures = satSucc h.failures) (tag : Option Nat) :
    Counted h' (if h.failures < u32Max then tag :: charged else charged) := by
  refine ⟨?_, failures ▸ satSucc_le _⟩
  split
  · rename_i below
    rw [failures, satSucc_of_lt below, List.length_cons, counted.length]
  · rename_i full
    have atMax : h.failures = u32Max := Nat.le_antisymm counted.saturated (Nat.not_lt.mp full)
    rw [failures, counted.length, satSucc_of_eq atMax, atMax]

theorem revoke (counted : Counted h charged) (policy : PoolPolicy) (streak : Nat) :
    Counted (h.revokePathFailures streak policy)
      (if h.pathStreak = streak then withdraw streak h.pathFailures charged else charged) := by
  have failures := (h.revokePathFailures_frame streak policy).2.2
  by_cases same : h.pathStreak = streak
  · simp only [if_pos same] at failures ⊢
    refine ⟨?_, failures ▸ Nat.le_trans (Nat.sub_le _ _) counted.saturated⟩
    rw [withdraw_length, failures, counted.length]
  · simp only [if_neg same] at failures ⊢
    exact counted.frame failures

theorem event (counted : Counted h charged) (policy : PoolPolicy) (now : Instant) (t : Tracked)
    (health : t.account.health = h) (contents : t.charged = charged) (taken : Health.Event) :
    Counted (h.apply policy now taken) (t.count taken) := by
  subst health contents
  cases taken with
  | none => exact counted
  | succeeded => exact ⟨rfl, Nat.zero_le _⟩
  | transient streak =>
    refine counted.add ?_ streak
    cases streak with
    | none => exact (t.account.health.transient_none_frame policy now).1
    | some streak => exact (t.account.health.transient_some_frame policy now streak).1
  | disable => exact counted.frame rfl
  | reject => exact counted.add rfl none
  | coolDown limit => exact counted.frame rfl

end Counted

/-- What holds of one account between the sections: the failures of a live streak are the ones
that `path_failures` can withdraw. -/
structure Sound (live : Nat → Prop) (bound : Nat) (h : Health) (charged : List (Option Nat)) : Prop
    extends Counted h charged where
  known : ∀ streak, some streak ∈ charged → streak ≤ bound
  carried : ∀ streak, live streak → some streak ∈ charged →
    h.pathStreak = streak ∧ charged.count (some streak) ≤ h.pathFailures

/-- A charge may land where it does not hide the charges of another live streak. -/
def Lands (live : Nat → Prop) (bound streak : Nat) (h : Health) : Prop :=
  streak ≤ bound ∧ (h.pathFailures = 0 ∨ h.pathStreak = streak ∨ ¬ live h.pathStreak)

namespace Sound
variable {live : Nat → Prop} {bound : Nat} {h : Health} {charged : List (Option Nat)}

theorem frame {h' : Health} (sound : Sound live bound h charged) (failures : h'.failures = h.failures)
    (pathFailures : h'.pathFailures = h.pathFailures) (pathStreak : h'.pathStreak = h.pathStreak) :
    Sound live bound h' charged where
  toCounted := sound.toCounted.frame failures
  known := sound.known
  carried := by rw [pathFailures, pathStreak]; exact sound.carried

theorem mono {live' : Nat → Prop} {bound' : Nat} (sound : Sound live bound h charged)
    (wider : bound ≤ bound') (fewer : ∀ streak, streak ≤ bound → live' streak → live streak) :
    Sound live' bound' h charged where
  toCounted := sound.toCounted
  known := fun streak member => Nat.le_trans (sound.known streak member) wider
  carried := fun streak alive member => sound.carried streak (fewer streak (sound.known streak member) alive) member

theorem none_live (sound : Sound live bound h charged)
    (hidden : h.pathFailures = 0 ∨ ¬ live h.pathStreak) {streak : Nat} (alive : live streak) :
    some streak ∉ charged := by
  intro member
  obtain ⟨same, covered⟩ := sound.carried streak alive member
  have present := List.count_pos_iff.mpr member
  rcases hidden with zero | dead
  · omega
  · exact dead (same ▸ alive)

theorem succeeded (live : Nat → Prop) (bound : Nat) (h : Health) : Sound live bound h.succeeded [] where
  toCounted := ⟨rfl, Nat.zero_le _⟩
  known := by simp
  carried := by simp

/-- A failure outside the path class, as long as the path fields are left alone. -/
theorem counted {h' : Health} (sound : Sound live bound h charged)
    (failures : h'.failures = satSucc h.failures) (pathFailures : h'.pathFailures = h.pathFailures)
    (pathStreak : h'.pathStreak = h.pathStreak) :
    Sound live bound h' (if h.failures < u32Max then none :: charged else charged) := by
  refine ⟨sound.toCounted.add failures none, ?_, ?_⟩
  · split
    · simpa using sound.known
    · exact sound.known
  · rw [pathFailures, pathStreak]
    split
    · simpa using sound.carried
    · exact sound.carried

/-- A path-class failure: it becomes the newest charge of its own streak. -/
theorem landed {h' : Health} {streak : Nat} (sound : Sound live bound h charged) (lands : Lands live bound streak h)
    (failures : h'.failures = satSucc h.failures) (pathStreak : h'.pathStreak = streak)
    (pathFailures : h'.pathFailures = if h.pathStreak = streak then satSucc h.pathFailures else 1) :
    Sound live bound h' (if h.failures < u32Max then some streak :: charged else charged) := by
  -- Other live streaks have no charge here: the ones carried are those of `pathStreak`.
  have others : ∀ other, live other → some other ∈ charged → other = streak := by
    intro other alive member
    rcases lands.2 with zero | same | dead
    · exact absurd member (sound.none_live (Or.inl zero) alive)
    · exact (sound.carried other alive member).1.symm.trans same
    · exact absurd member (sound.none_live (Or.inr dead) alive)
  have room : charged.count (some streak) ≤ h.failures := sound.length ▸ List.count_le_length
  have covered : live streak → charged.count (some streak) + 1 ≤ u32Max →
      charged.count (some streak) + 1 ≤ h'.pathFailures := by
    intro alive below
    rw [pathFailures]
    by_cases member : some streak ∈ charged
    · obtain ⟨same, covered⟩ := sound.carried streak alive member
      rw [if_pos same]
      exact le_satSucc (by omega) below
    · rw [List.count_eq_zero_of_not_mem member]
      split
      · exact PathHealth.satSucc_pos _
      · exact Nat.le_refl 1
  refine ⟨sound.toCounted.add failures (some streak), ?_, ?_⟩
  · intro other member
    split at member
    · rcases List.mem_cons.mp member with same | old
      · cases same
        exact lands.1
      · exact sound.known other old
    · exact sound.known other member
  · intro other alive member
    by_cases below : h.failures < u32Max
    · rw [if_pos below] at member ⊢
      have same : other = streak := by
        rcases List.mem_cons.mp member with same | old
        · exact Option.some.inj same
        · exact others other alive old
      subst other
      refine ⟨pathStreak, ?_⟩
      rw [List.count_cons_self]
      exact covered alive (by omega)
    · rw [if_neg below] at member ⊢
      have same := others other alive member
      subst other
      refine ⟨pathStreak, ?_⟩
      obtain ⟨atStreak, kept⟩ := sound.carried _ alive member
      rw [pathFailures, if_pos atStreak]
      exact le_satSucc (by omega) (Nat.le_trans room sound.saturated)

theorem revoke (sound : Sound live bound h charged) (policy : PoolPolicy) (streak : Nat) :
    Sound live bound (h.revokePathFailures streak policy)
      (if h.pathStreak = streak then withdraw streak h.pathFailures charged else charged) := by
  obtain ⟨pathStreak, pathFailures, failures⟩ := h.revokePathFailures_frame streak policy
  have counter := sound.toCounted.revoke policy streak
  by_cases same : h.pathStreak = streak
  · simp only [if_pos same] at counter ⊢
    refine ⟨counter, ?_, ?_⟩
    · exact fun other member => sound.known other (withdraw_subset _ _ _ member)
    · intro other alive member
      obtain ⟨atOther, covered⟩ := sound.carried other alive (withdraw_subset _ _ _ member)
      rw [← atOther.symm.trans same] at member
      exact absurd member (withdraw_clears covered)
  · simp only [if_neg same] at pathFailures failures ⊢
    exact sound.frame failures pathFailures pathStreak

end Sound

/-- One report, whatever its outcome: the account stays sound, provided the failure it may
count under a streak lands without hiding a live one. -/
theorem Tracked.report_sound {live : Nat → Prop} {bound : Nat} {t : Tracked} (cfg : Setup) (now : Instant)
    (result : Except AppError Unit) (code : Option String) (charge : Charge)
    (sound : Sound live bound t.account.health t.charged)
    (lands : ∀ streak, (t.account.reportSignal cfg.policy cfg.login now result code charge).2.1 =
      .transient (some streak) → Lands live bound streak t.account.health) :
    Sound live bound (t.report cfg now result code charge).account.health
      (t.report cfg now result code charge).charged := by
  simp only [Tracked.report, Account.report]
  generalize (t.account.reportSignal cfg.policy cfg.login now result code charge).2.1 = event at lands ⊢
  cases event with
  | none => exact sound
  | succeeded => exact Sound.succeeded live bound _
  | transient streak =>
    cases streak with
    | none =>
      obtain ⟨failures, pathFailures, pathStreak⟩ := t.account.health.transient_none_frame cfg.policy now
      exact sound.counted failures pathFailures pathStreak
    | some streak =>
      obtain ⟨failures, pathStreak, pathFailures⟩ := t.account.health.transient_some_frame cfg.policy now streak
      exact sound.landed (lands streak rfl) failures pathStreak pathFailures
  | disable => exact sound.frame rfl rfl rfl
  | reject => exact sound.counted rfl rfl rfl
  | coolDown limit => exact sound.frame rfl rfl rfl

variable {ι : Type}

/-- Somebody is still going to withdraw the charges of the streak from the account. -/
def Owed (w : World ι) (i : ι) (streak : Nat) : Prop :=
  streak ∈ w.revokes ∨
    ∃ call ∈ w.calls, call.account = i ∧ call.charge = .account (some streak) ∧ call.landed = true

theorem Owed.more {w : World ι} {i : ι} {streak : Nat} (owed : Owed w i streak) {calls : List (Call ι)}
    (more : w.calls ⊆ calls) : Owed { w with calls := calls } i streak := by
  rcases owed with pending | ⟨call, inCalls, rest⟩
  · exact Or.inl pending
  · exact Or.inr ⟨call, more inCalls, rest⟩

structure Inv (w : World ι) : Prop where
  past : ∀ streak ∈ w.attributed, streak ≤ w.path.epoch
  calls : ∀ call ∈ w.calls, ∀ streak, call.charge = .account (some streak) → streak ≤ w.path.epoch
  sound : ∀ i, Sound (Live w) w.path.epoch (w.accounts i).account.health (w.accounts i).charged
  owed : ∀ i, ∀ streak ∈ w.attributed, 0 < (w.accounts i).account.health.pathFailures →
    (w.accounts i).account.health.pathStreak = streak → Owed w i streak

theorem initial_inv (accounts : ι → Account) : Inv (initial accounts) where
  past := by simp [initial]
  calls := by simp [initial]
  sound := fun i => ⟨⟨rfl, Nat.zero_le _⟩, by simp [initial], by simp [initial]⟩
  owed := by simp [initial]

theorem Inv.record {w : World ι} (inv : Inv w) (cfg : Setup) (now : Instant) (source : Option String)
    (outcome : PathHealth.Outcome) : Inv (w.record cfg now source outcome) := by
  obtain ⟨later, named, kept⟩ := PathHealth.record_streak cfg.path now source outcome w.path
  simp only [World.record]
  generalize PathHealth.record cfg.path now source outcome w.path = r at later named kept
  obtain ⟨path, change⟩ := r
  refine ⟨?_, ?_, ?_, ?_⟩
  · intro streak member
    rcases List.mem_append.mp member with new | old
    · exact Nat.le_of_eq (named streak (Option.mem_toList.mp new))
    · exact Nat.le_trans (inv.past streak old) later
  · exact fun call member streak charged => Nat.le_trans (inv.calls call member streak charged) later
  · intro i
    refine (inv.sound i).mono later ?_
    rintro streak existed (progress | member)
    · exact Or.inl (kept streak existed (Or.inl progress))
    · rcases List.mem_append.mp member with new | old
      · exact Or.inl (kept streak existed (Or.inr (Option.mem_toList.mp new)))
      · exact Or.inr old
  · intro i streak member positive same
    rcases List.mem_append.mp member with new | old
    · exact Or.inl (List.mem_append_left _ new)
    · rcases inv.owed i streak old positive same with pending | call
      · exact Or.inl (List.mem_append_right _ pending)
      · exact Or.inr call

/-- A change of the path that leaves the streak bookkeeping alone. -/
theorem Inv.path_frame {w : World ι} (inv : Inv w) {path : PathHealth.State}
    (frame : path.epoch = w.path.epoch ∧ path.failures = w.path.failures ∧
      path.lastAttributed = w.path.lastAttributed) : Inv { w with path := path } := by
  obtain ⟨epoch, failures, _⟩ := frame
  refine ⟨?_, ?_, ?_, inv.owed⟩
  · simpa only [epoch] using inv.past
  · simpa only [epoch] using inv.calls
  · intro i
    refine (inv.sound i).mono (Nat.le_of_eq epoch.symm) ?_
    rintro streak _ (progress | member)
    · exact Or.inl ⟨epoch ▸ progress.1, failures ▸ progress.2⟩
    · exact Or.inr member

/-- A revoked account carries no charge of the streak any more. -/
theorem Tracked.revoke_clears {policy : PoolPolicy} {streak : Nat} {t : Tracked}
    (same : (t.revoke policy streak).account.health.pathStreak = streak) :
    (t.revoke policy streak).account.health.pathFailures = 0 := by
  obtain ⟨pathStreak, pathFailures, _⟩ := t.account.health.revokePathFailures_frame streak policy
  have before : t.account.health.pathStreak = streak := pathStreak.symm.trans same
  exact pathFailures.trans (if_pos before)

theorem Tracked.revoke_pathStreak (policy : PoolPolicy) (streak : Nat) (t : Tracked) :
    (t.revoke policy streak).account.health.pathStreak = t.account.health.pathStreak :=
  (t.account.health.revokePathFailures_frame streak policy).1

theorem Tracked.revoke_pathFailures_le (policy : PoolPolicy) (streak : Nat) (t : Tracked) :
    (t.revoke policy streak).account.health.pathFailures ≤ t.account.health.pathFailures := by
  have pathFailures := (t.account.health.revokePathFailures_frame streak policy).2.1
  refine Nat.le_trans (Nat.le_of_eq pathFailures) ?_
  split <;> omega

theorem Inv.revoke {w : World ι} (inv : Inv w) (policy : PoolPolicy) (streak : Nat) :
    Inv { w with
      accounts := fun i => (w.accounts i).revoke policy streak
      revokes := w.revokes.erase streak } where
  past := inv.past
  calls := inv.calls
  sound := fun i => (inv.sound i).revoke policy streak
  owed := by
    intro i other member positive same
    by_cases equal : other = streak
    · have none_left := Tracked.revoke_clears (same.trans equal)
      exact absurd positive (Nat.not_lt.mpr (Nat.le_of_eq none_left))
    · have before := (Tracked.revoke_pathStreak policy streak (w.accounts i)).symm.trans same
      have charged := Nat.lt_of_lt_of_le positive (Tracked.revoke_pathFailures_le policy streak (w.accounts i))
      rcases inv.owed i other member charged before with pending | call
      · exact Or.inl ((List.mem_erase_of_ne equal).mpr pending)
      · exact Or.inr call

theorem Inv.withdrawn {w : World ι} (inv : Inv w) (quiet : Quiescent w) : Withdrawn w := by
  have settled : ∀ i, ∀ streak ∈ w.attributed, ¬ (0 < (w.accounts i).account.health.pathFailures ∧
      (w.accounts i).account.health.pathStreak = streak) := by
    rintro i streak attributed ⟨positive, same⟩
    rcases inv.owed i streak attributed positive same with pending | ⟨call, member, _⟩
    · simp [quiet.2] at pending
    · simp [quiet.1] at member
  intro i streak attributed
  refine ⟨settled i streak attributed, ?_⟩
  intro contained
  obtain ⟨same, covered⟩ := (inv.sound i).carried streak (Or.inr attributed) contained
  exact settled i streak attributed ⟨Nat.lt_of_lt_of_le (List.count_pos_iff.mpr contained) covered, same⟩

variable [DecidableEq ι]

/-- A step on one account alone: it stays sound, and whatever it still carries is owed. -/
theorem Inv.account {w : World ι} (inv : Inv w) {i : ι} {t : Tracked} {calls : List (Call ι)}
    (known : ∀ call ∈ calls, ∀ streak, call.charge = .account (some streak) → streak ≤ w.path.epoch)
    (sound : Sound (Live w) w.path.epoch t.account.health t.charged)
    (others : ∀ j ≠ i, ∀ call ∈ w.calls, call.account = j → call.landed = true → call ∈ calls)
    (owed : ∀ streak ∈ w.attributed, 0 < t.account.health.pathFailures → t.account.health.pathStreak = streak →
      Owed { w with calls := calls } i streak) :
    Inv { w.setAccount i t with calls := calls } where
  past := inv.past
  calls := known
  sound := by
    intro j
    by_cases equal : j = i
    · subst j
      simp only [World.setAccount, Function.update_self]
      exact sound
    · simp only [World.setAccount, Function.update_of_ne equal]
      exact inv.sound j
  owed := by
    intro j streak member
    by_cases equal : j = i
    · subst j
      simp only [World.setAccount, Function.update_self]
      exact owed streak member
    · simp only [World.setAccount, Function.update_of_ne equal]
      intro positive same
      rcases inv.owed j streak member positive same with pending | ⟨call, inCalls, account, charge, landed⟩
      · exact Or.inl pending
      · exact Or.inr ⟨call, others j equal call inCalls account landed, account, charge, landed⟩

theorem Inv.adjust {w : World ι} (inv : Inv w) (i : ι) {f : Health → Health}
    (failures : ∀ h, (f h).failures = h.failures) (pathFailures : ∀ h, (f h).pathFailures = h.pathFailures)
    (pathStreak : ∀ h, (f h).pathStreak = h.pathStreak) : Inv (w.setAccount i ((w.accounts i).adjust f)) := by
  refine inv.account inv.calls ((inv.sound i).frame (failures _) (pathFailures _) (pathStreak _))
    (fun _ _ call member _ _ => member) ?_
  intro streak member positive same
  exact inv.owed i streak member (pathFailures _ ▸ positive) ((pathStreak _).symm.trans same)

/-- The calls on other accounts stay when one call moves on. -/
theorem mem_erase_other {calls : List (Call ι)} {call other : Call ι} (different : other.account ≠ call.account)
    (member : other ∈ calls) : other ∈ calls.erase call := by
  refine (List.mem_erase_of_ne ?_).mpr member
  rintro rfl
  exact different rfl

/-- A call that moves on takes nothing from a streak that it does not owe itself. -/
theorem Owed.erase {w : World ι} {i : ι} {streak : Nat} {call : Call ι} (owed : Owed w i streak)
    (free : call.charge = .account (some streak) → call.landed = true → False) :
    Owed { w with calls := w.calls.erase call } i streak := by
  rcases owed with pending | ⟨other, inCalls, account, charge, landed⟩
  · exact Or.inl pending
  · refine Or.inr ⟨other, (List.mem_erase_of_ne ?_).mpr inCalls, account, charge, landed⟩
    rintro rfl
    exact free charge landed

theorem Inv.report {w : World ι} (inv : Inv w) (cfg : Setup) {call : Call ι} (now : Instant)
    (result : Except AppError Unit) (code : Option String) (member : call ∈ w.calls) (waiting : call.landed = false)
    (tracks : Tracks cfg w (.report call now result code)) :
    Inv { w.setAccount call.account ((w.accounts call.account).report cfg now result code call.charge) with
      calls := { call with landed := true } :: w.calls.erase call } := by
  have landing : ∀ streak, ((w.accounts call.account).account.reportSignal cfg.policy cfg.login now result code
      call.charge).2.1 = .transient (some streak) →
      Lands (Live w) w.path.epoch streak (w.accounts call.account).account.health :=
    fun streak lands => ⟨inv.calls call member streak (Account.reportSignal_streak lands), tracks streak lands⟩
  refine inv.account ?_ (Tracked.report_sound cfg now result code call.charge (inv.sound _) landing) ?_ ?_
  · intro other inCalls streak charged
    rcases List.mem_cons.mp inCalls with same | old
    · exact inv.calls call member streak (by rw [same] at charged; exact charged)
    · exact inv.calls other (List.mem_of_mem_erase old) streak charged
  · intro j different other inCalls account landed
    exact List.mem_cons_of_mem _ (mem_erase_other (fun same => different (account.symm.trans same)) inCalls)
  · intro streak attributed
    -- What the account carries afterwards is this call's own charge or was owed before.
    have kept : 0 < (w.accounts call.account).account.health.pathFailures →
        (w.accounts call.account).account.health.pathStreak = streak →
        Owed { w with calls := { call with landed := true } :: w.calls.erase call } call.account streak := by
      intro positive same
      have owed := inv.owed call.account streak attributed positive same
      have erased := owed.erase fun _ landed => Bool.false_ne_true (waiting.symm.trans landed)
      exact erased.more (List.subset_cons_self _ _)
    simp only [Tracked.report, Account.report]
    generalize event : ((w.accounts call.account).account.reportSignal cfg.policy cfg.login now result code
      call.charge).2.1 = taken
    cases taken with
    | none => exact kept
    | succeeded => exact fun positive => absurd positive (Nat.lt_irrefl 0)
    | transient charged =>
      cases charged with
      | none =>
        obtain ⟨_, pathFailures, pathStreak⟩ :=
          (w.accounts call.account).account.health.transient_none_frame cfg.policy now
        exact fun positive same => kept (pathFailures ▸ positive) (pathStreak.symm.trans same)
      | some landed =>
        obtain ⟨_, pathStreak, _⟩ :=
          (w.accounts call.account).account.health.transient_some_frame cfg.policy now landed
        intro _ same
        have equal : landed = streak := pathStreak.symm.trans same
        exact Or.inr ⟨_, List.mem_cons_self, rfl, equal ▸ Account.reportSignal_streak event, rfl⟩
    | disable => exact kept
    | reject => exact kept
    | coolDown limit => exact kept

/-- The end of a call, with `t` for its account: a streak other than the settled one keeps whoever
owes its withdrawal. -/
theorem Inv.ended {w : World ι} (inv : Inv w) {call : Call ι} {t : Tracked}
    (sound : Sound (Live w) w.path.epoch t.account.health t.charged)
    (fewer : t.account.health.pathFailures ≤ (w.accounts call.account).account.health.pathFailures)
    (streak : t.account.health.pathStreak = (w.accounts call.account).account.health.pathStreak)
    (settled : ∀ streak ∈ w.attributed, call.charge = .account (some streak) →
      0 < t.account.health.pathFailures → t.account.health.pathStreak = streak → False) :
    Inv { w.setAccount call.account t with calls := w.calls.erase call } := by
  refine inv.account ?_ sound ?_ ?_
  · exact fun other inCalls => inv.calls other (List.mem_of_mem_erase inCalls)
  · intro j different other inCalls account _
    exact mem_erase_other (fun same => different (account.symm.trans same)) inCalls
  · intro s attributed positive same
    have owed := inv.owed call.account s attributed (Nat.lt_of_lt_of_le positive fewer) (streak.symm.trans same)
    exact owed.erase fun own _ => settled s attributed own positive same

theorem Inv.settle {w : World ι} (inv : Inv w) (cfg : Setup) {call : Call ι}
    (tracks : Tracks cfg w (.settle call)) :
    Inv { w.settleCharge cfg call with calls := w.calls.erase call } := by
  have self : w.setAccount call.account (w.accounts call.account) = w := by
    simp only [World.setAccount, Function.update_eq_self]
  unfold World.settleCharge
  split
  · rename_i settled charge
    split
    · refine inv.ended ((inv.sound _).revoke cfg.policy settled) (Tracked.revoke_pathFailures_le cfg.policy settled _)
        (Tracked.revoke_pathStreak cfg.policy settled _) ?_
      intro streak _ own positive same
      rw [charge] at own
      cases own
      have none_left := Tracked.revoke_clears same
      exact absurd positive (Nat.not_lt.mpr (Nat.le_of_eq none_left))
    · rename_i forgotten
      rw [← self]
      refine inv.ended (inv.sound _) (Nat.le_refl _) rfl ?_
      intro streak attributed own positive same
      have last := tracks streak own attributed positive same
      rw [charge] at own
      cases own
      exact forgotten (by simp [PathHealth.attributedTo, last])
  · rename_i uncharged
    rw [← self]
    refine inv.ended (inv.sound _) (Nat.le_refl _) rfl ?_
    exact fun streak _ own _ _ => uncharged streak own

theorem step_inv {cfg : Setup} {w next : World ι} {label : Label ι} (inv : Inv w)
    (tracks : Tracks cfg w label) (taken : step cfg w label = some next) : Inv next := by
  cases label with
  | record now source outcome =>
    cases Option.some.inj taken
    exact inv.record cfg now source outcome
  | revoke streak =>
    simp only [step] at taken
    split at taken
    · cases Option.some.inj taken
      exact inv.revoke cfg.policy streak
    · cases taken
  | admitCall now =>
    obtain ⟨admitted, granted, rfl⟩ := Option.map_eq_some_iff.mp taken
    exact inv.path_frame (PathHealth.admitCall_frame granted)
  | dropTicket probe =>
    cases Option.some.inj taken
    exact inv.path_frame (PathHealth.dropTicket_frame probe w.path)
  | charge i =>
    cases Option.some.inj taken
    refine ⟨inv.past, ?_, inv.sound, ?_⟩
    · intro call member streak charged
      rcases List.mem_cons.mp member with rfl | old
      · exact Nat.le_of_eq (PathHealth.charge_streak charged).1.1.symm
      · exact inv.calls call old streak charged
    · intro j streak attributed positive same
      exact (inv.owed j streak attributed positive same).imp_right fun ⟨call, member, rest⟩ =>
        ⟨call, List.mem_cons_of_mem _ member, rest⟩
  | report call now result code =>
    simp only [step] at taken
    split at taken
    · rename_i ready
      cases Option.some.inj taken
      exact inv.report cfg now result code ready.1 ready.2 tracks
    · cases taken
  | settle call =>
    simp only [step] at taken
    split at taken
    · cases Option.some.inj taken
      exact inv.settle cfg tracks
    · cases taken
  | disable i =>
    cases Option.some.inj taken
    exact inv.adjust i (fun _ => rfl) (fun _ => rfl) (fun _ => rfl)
  | coolDown i limit =>
    cases Option.some.inj taken
    exact inv.adjust i (fun _ => rfl) (fun _ => rfl) (fun _ => rfl)

/-- Every quiescent state of a run that keeps track of the live charges has withdrawn all
charges of attributed streaks, for any accounts and any interleaving. -/
theorem withdrawal_complete (cfg : Setup) (accounts : ι → Account) {w : World ι}
    (reach : Run.Reach (step cfg) (Tracks cfg) (initial accounts) w) (quiet : Quiescent w) : Withdrawn w :=
  (reach.invariant (initial_inv accounts) fun _ _ _ inv tracks taken => step_inv inv tracks taken).withdrawn quiet

def loneSetup : Setup := { policy := {}, login := none }

def loneAccount : Unit → Account := fun _ => { name := "a", source := .static "1" "secret" }

/-- The call takes its charge in streak 1, which is attributed and withdrawn before the charge
lands; by then streak 2 is the last attributed one. -/
def lateLanding : List (Label Unit) :=
  let charged : Call Unit := { account := (), charge := .account (some 1), landed := false }
  [.record 0 (some "a") (.fault "upstream_timeout"), .charge (),
    .record 1 none (.fault "upstream_timeout"), .revoke 1, .record 2 none .healthy,
    .record 3 none (.fault "upstream_timeout"), .revoke 2,
    .report charged 4 (.error .timeout) none, .settle { charged with landed := true }]

/-- The settlement compares with the last attributed streak only, so a charge that lands after
the next attribution stays. -/
theorem late_charge_survives :
    ∃ w, Run.Reach (step loneSetup) (fun _ _ => True) (initial loneAccount) w ∧ Quiescent w ∧
      ¬ Withdrawn w := by
  obtain ⟨w, run⟩ : ∃ w, Run.exec (step loneSetup) (initial loneAccount) lateLanding = some w := ⟨_, rfl⟩
  refine ⟨w, Run.reach_of_exec run, ?_⟩
  cases Option.some.inj run
  refine ⟨⟨rfl, rfl⟩, fun withdrawn => ?_⟩
  exact (withdrawn () 1 (by decide)).1 ⟨by decide, by decide⟩

/-- The condition is met by a run in which the charge lands and is settled before the next
streak begins: its charge is withdrawn. -/
theorem withdrawal_complete_lone :
    ∃ w, Run.Reach (step loneSetup) (Tracks loneSetup) (initial loneAccount) w ∧ 1 ∈ w.attributed ∧
      Quiescent w ∧ Withdrawn w := by
  let charged : Call Unit := { account := (), charge := .account (some 1), landed := false }
  have first : Run.Reach (step loneSetup) (Tracks loneSetup) (initial loneAccount) _ :=
    .next .start (l := .record 0 (some "a") (.fault "upstream_timeout")) trivial rfl
  have second := first.next (l := Label.charge ()) trivial rfl
  have third := second.next (l := Label.report charged 1 (.error .timeout) none) (by intro _ _; exact Or.inl rfl) rfl
  have fourth := third.next (l := Label.record 2 none (.fault "upstream_timeout")) trivial rfl
  have fifth := fourth.next (l := Label.revoke 1) trivial rfl
  have sixth := fifth.next (l := Label.settle { charged with landed := true })
    (by intro streak same; cases same; intro _ _ _; rfl) rfl
  exact ⟨_, sixth, by decide, ⟨rfl, rfl⟩, withdrawal_complete loneSetup loneAccount sixth ⟨rfl, rfl⟩⟩

/-- In every run, also one that loses track of a charge, the counter of every account is the
number of failures it contains. -/
theorem failures_contained (cfg : Setup) (accounts : ι → Account) {w : World ι}
    (reach : Run.Reach (step cfg) (fun _ _ => True) (initial accounts) w) (i : ι) :
    (w.accounts i).charged.length = (w.accounts i).account.health.failures := by
  suffices all : ∀ i, Counted (w.accounts i).account.health (w.accounts i).charged from (all i).length
  refine reach.invariant (P := fun w => ∀ i, Counted (w.accounts i).account.health (w.accounts i).charged)
    (fun _ => ⟨rfl, Nat.zero_le _⟩) ?_
  intro before label after counted _ taken
  have update : ∀ (j : ι) (t : Tracked), Counted t.account.health t.charged → ∀ i,
      Counted ((before.setAccount j t).accounts i).account.health ((before.setAccount j t).accounts i).charged := by
    intro j t kept i
    by_cases same : i = j
    · subst i
      simpa only [World.setAccount, Function.update_self] using kept
    · simpa only [World.setAccount, Function.update_of_ne same] using counted i
  cases label with
  | record now source outcome => cases Option.some.inj taken; exact counted
  | revoke streak =>
    simp only [step] at taken
    split at taken
    · cases Option.some.inj taken
      exact fun i => (counted i).revoke cfg.policy streak
    · cases taken
  | admitCall now => obtain ⟨_, _, rfl⟩ := Option.map_eq_some_iff.mp taken; exact counted
  | dropTicket probe => cases Option.some.inj taken; exact counted
  | charge i => cases Option.some.inj taken; exact counted
  | report call now result code =>
    simp only [step] at taken
    split at taken
    · cases Option.some.inj taken
      exact update _ _ ((counted _).event cfg.policy now _ rfl rfl _)
    · cases taken
  | settle call =>
    simp only [step] at taken
    split at taken
    · cases Option.some.inj taken
      simp only [World.settleCharge]
      split
      · split
        · exact update _ _ ((counted _).revoke cfg.policy _)
        · exact counted
      · exact counted
    · cases taken
  | disable i => cases Option.some.inj taken; exact update i _ ((counted i).frame rfl)
  | coolDown i limit => cases Option.some.inj taken; exact update i _ ((counted i).frame rfl)

end SiriusProxy.Withdrawal
