import Mathlib.Data.List.Basic

namespace Window
variable {gap width cap : Nat} {times : List Nat}

/-- Of times listed newest first, any two are at least `gap` apart. -/
def Spaced (gap : Nat) (times : List Nat) : Prop := times.Pairwise fun later earlier => earlier + gap ≤ later

/-- Each time has fewer than `cap` earlier ones within `width`. -/
def Capped (width cap : Nat) : List Nat → Prop
  | [] => True
  | t :: earlier => (earlier.filter fun s => decide (t < s + width)).length < cap ∧ Capped width cap earlier

/-- The times in the window of `width` that begins at `start`. -/
def inWindow (width start : Nat) (times : List Nat) : List Nat :=
  times.filter fun t => decide (start ≤ t ∧ t < start + width)

theorem Capped.inWindow_le (capped : Capped width cap times) (start : Nat) :
    (inWindow width start times).length ≤ cap := by
  induction times with
  | nil => exact Nat.zero_le _
  | cons t earlier ih =>
    obtain ⟨few, rest⟩ := capped
    unfold inWindow
    rw [List.filter_cons]
    split_ifs with inside
    · have near : (inWindow width start earlier).length ≤ (earlier.filter fun s => decide (t < s + width)).length := by
        refine (List.monotone_filter_right earlier fun s counted => ?_).length_le
        have recent := of_decide_eq_true counted
        have now := of_decide_eq_true inside
        exact decide_eq_true (by omega)
      rw [List.length_cons]
      exact Nat.succ_le_of_lt (Nat.lt_of_le_of_lt near few)
    · exact ih rest

/-- In ascending times, what is dropped from the front is everything old. -/
theorem dropWhile_eq_filter {old : Nat → Bool} (ascending : times.Pairwise (· ≤ ·))
    (down : ∀ s t, s ≤ t → old t = true → old s = true) :
    times.dropWhile old = times.filter fun t => !old t := by
  induction times with
  | nil => rfl
  | cons t later ih =>
    obtain ⟨first, rest⟩ := List.pairwise_cons.mp ascending
    rw [List.dropWhile_cons, List.filter_cons]
    cases past : old t with
    | true =>
      simp only [if_true, Bool.not_true, Bool.false_eq_true, if_false]
      exact ih rest
    | false =>
      simp only [Bool.false_eq_true, if_false, Bool.not_false, if_true]
      congr 1
      refine (List.filter_eq_self.mpr fun s member => ?_).symm
      cases also : old s with
      | false => rfl
      | true => rw [down t s (first s member) also] at past; cases past

/-- Windows bound what each time sees before it: the last window that holds it decides. -/
theorem Capped.of_inWindow (wide : 0 < width) (spaced : Spaced gap times)
    (few : ∀ start, (inWindow width start times).length ≤ cap) : Capped width cap times := by
  induction times with
  | nil => trivial
  | cons t earlier ih =>
    obtain ⟨apart, rest⟩ := List.pairwise_cons.mp spaced
    constructor
    · have own : decide (t + 1 - width ≤ t ∧ t < t + 1 - width + width) = true := decide_eq_true (by omega)
      have near : (earlier.filter fun s => decide (t < s + width)) = inWindow width (t + 1 - width) earlier := by
        refine List.filter_congr fun s member => ?_
        have order := apart s member
        exact decide_eq_decide.mpr (by omega)
      have all := few (t + 1 - width)
      rw [inWindow, List.filter_cons, if_pos own, List.length_cons] at all
      rw [near]
      exact all
    · refine ih rest fun start => Nat.le_trans ?_ (few start)
      exact ((List.sublist_cons_self t earlier).filter _).length_le

/-- The times that still count after the newest one are at most the cap. -/
theorem Capped.recent_le {now : Nat} (capped : Capped width cap times) (past : ∀ t ∈ times, t ≤ now) :
    (times.filter fun t => decide (now < t + width)).length ≤ cap := by
  cases times with
  | nil => exact Nat.zero_le _
  | cons t earlier =>
    have few := capped.1
    have order := past t List.mem_cons_self
    have near : (earlier.filter fun s => decide (now < s + width)).length ≤
        (earlier.filter fun s => decide (t < s + width)).length := by
      refine (List.monotone_filter_right earlier fun s counted => ?_).length_le
      have recent := of_decide_eq_true counted
      exact decide_eq_true (by omega)
    have one := List.length_filter_le (fun s => decide (now < s + width)) [t]
    rw [← List.singleton_append, List.filter_append, List.length_append]
    rw [List.length_singleton] at one
    omega

end Window
