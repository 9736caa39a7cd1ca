import Mathlib.Data.List.Induction
import SiriusProxy.Master.Interleaved

namespace SiriusProxy.Master
open Reads (eval)

variable {B : Type} (lib : Serde B)

/-- `prune_within` where no file operation fails and nobody else writes. -/
def pruneWithin (keep budget : Nat) (root : Root B) : Except MasterError Nat × Root B :=
  match eval root (prunePlan lib keep) with
  | .error e => (.error e, root)
  | .ok none => (.ok 0, root)
  | .ok (some plan) =>
    let removals := plan.candidates.reverse.take budget
    let bounded := if plan.old = some plan.boundary then root
      else { root with retention := some (.file (lib.ofRetention ⟨1, plan.boundary⟩)) }
    (.ok removals.length, removals.foldl Root.without bounded)

/-- The disk after `n` passes. -/
def passes (keep budget : Nat) : Nat → Root B → Root B
  | 0, root => root
  | n + 1, root => (pruneWithin lib keep budget (passes keep budget n root)).2

/-- The snapshots from the head down to the boundary of a pass. -/
def spanned (old : Option String) : Nat → List String → List String
  | 0, _ => []
  | _, [] => []
  | keep + 1, s :: rest => if old = some s then [s] else s :: spanned old keep rest

def backlog (old : Option String) (keep : Nat) (live : List String) : List String :=
  live.drop (spanned old keep live).length

def standing (root : Root B) (snapshots : List String) : Nat := snapshots.countP fun s => (root.snapshots s).isSome

variable {lib} {region : Region} {root : Root B} {named live removed legacy : List String} {old : Option String}
  {keep budget : Nat}

/-- The removals of a pass, taken one step each and stopped after the last, leave the disk without
these snapshots. -/
theorem exec_removals {w : World lib} (removals : List String) (phase : w.phase = .removing keep old removals) :
    Run.exec step w (List.replicate removals.length .remove ++ [.stop]) =
      some { w with root := removals.foldl Root.without w.root, phase := .idle } := by
  induction removals generalizing w with
  | nil => rfl
  | cons s removals ih =>
    have taken : step w .remove = some { w with root := w.root.without s, phase := .removing keep old removals } := by
      simp only [step, phase]
    rw [List.length_cons, List.replicate_succ, List.cons_append, Run.exec, taken, Option.bind_some]
    exact ih rfl

/-- A pass alone is a run of the lock holder. -/
theorem exec_pruneWithin {w : World lib} (idle : w.phase = .idle) (keep budget : Nat) :
    ∃ labels, Run.exec step w (.prune keep budget :: labels) =
      some { w with root := (pruneWithin lib keep budget w.root).2, phase := .idle } := by
  have taken : step w (.prune keep budget) = some (w.prune keep budget) := by simp only [step, idle]
  simp only [Run.exec, taken, Option.bind_some]
  unfold World.prune pruneWithin
  cases read : eval w.root (prunePlan lib keep) with
  | error e => exact ⟨[.stop], rfl⟩
  | ok found =>
    cases found with
    | none => exact ⟨[.stop], rfl⟩
    | some plan =>
      simp only
      by_cases same : plan.old = some plan.boundary
      · rw [if_pos same, if_pos same]
        exact ⟨_, exec_removals _ rfl⟩
      · rw [if_neg same, if_neg same]
        let removals := plan.candidates.reverse.take budget
        refine ⟨.bound :: (List.replicate removals.length .remove ++ [.stop]), ?_⟩
        exact exec_removals removals rfl

/-- Where a pass finds its boundary, or that the chain ends before. -/
theorem spanned_cases (old : Option String) (keep : Nat) (live : List String) :
    (∃ front b back, live = front ++ b :: back ∧ spanned old keep live = front ++ [b] ∧ front.length < keep ∧
      (front.length + 1 = keep ∨ old = some b) ∧ ∀ o ∈ front, old ≠ some o) ∨
    spanned old keep live = live ∧ live.length < keep ∧ (∀ o ∈ live, old ≠ some o) ∨ keep = 0 := by
  induction live generalizing keep with
  | nil =>
    cases keep with
    | zero => exact Or.inr (Or.inr rfl)
    | succ keep => exact Or.inr (Or.inl ⟨rfl, Nat.zero_lt_succ _, by simp⟩)
  | cons s rest ih =>
    cases keep with
    | zero => exact Or.inr (Or.inr rfl)
    | succ keep =>
      by_cases told : old = some s
      · refine Or.inl ⟨[], s, rest, rfl, ?_, Nat.zero_lt_succ _, Or.inr told, by simp⟩
        rw [spanned, if_pos told]
        rfl
      have here : spanned old (keep + 1) (s :: rest) = s :: spanned old keep rest := by
        rw [spanned, if_neg told]
      rcases ih keep with ⟨front, b, back, rfl, span, count, stop, unmet⟩ | ⟨span, short, unmet⟩ | rfl
      · refine Or.inl ⟨s :: front, b, back, rfl, by rw [here, span]; rfl, Nat.succ_lt_succ count, ?_, ?_⟩
        · exact stop.imp_left fun last => by rw [List.length_cons, last]
        · exact List.forall_mem_cons.mpr ⟨told, unmet⟩
      · exact Or.inr (Or.inl ⟨by rw [here, span], Nat.succ_lt_succ short, List.forall_mem_cons.mpr ⟨told, unmet⟩⟩)
      · refine Or.inl ⟨[], s, rest, rfl, ?_, Nat.zero_lt_succ _, Or.inl rfl, by simp⟩
        rw [here, spanned]
        rfl

/-- A live snapshot that leads to one not visited yet. -/
theorem Shape.eval_link (shape : Shape lib region root named live removed legacy) {done more visited : List String}
    {s : String} (position : live = done ++ s :: more) (unseen : ∀ q ∈ more ++ removed ++ legacy, q ∉ visited) :
    ∃ publishedAt, eval root ((Master.member lib s visited).zoom fun root => root.snapshots s) =
      .ok (some ⟨1, s, (more ++ removed ++ legacy).head?, publishedAt⟩) := by
  obtain ⟨publishedAt, read⟩ := shape.eval_member position visited
  have accepted : (more ++ removed ++ legacy).head?.all (fun q => !visited.contains q) = true := by
    cases first : (more ++ removed ++ legacy).head? with
    | none => rfl
    | some q => simpa using unseen q (List.mem_of_mem_head? first)
  rw [if_pos accepted] at read
  exact ⟨publishedAt, read⟩

/-- Going on to the next snapshot of a chain without repetitions. -/
theorem unseen_next {s : String} {rest visited : List String} (unseen : ∀ q ∈ s :: rest, q ∉ visited)
    (distinct : (s :: rest).Nodup) : visited.contains s = false ∧ ∀ q ∈ rest, q ∉ s :: visited := by
  refine ⟨by simpa using unseen s List.mem_cons_self, fun q member => ?_⟩
  rw [List.mem_cons, not_or]
  exact ⟨fun same => (List.nodup_cons.mp distinct).1 (same ▸ member), unseen q (List.mem_cons_of_mem s member)⟩

/-- The first loop of `prune_within` visits the snapshots in front of the boundary and stops there, at the count or
at the old boundary, whichever comes first. By induction on the snapshots in front. -/
theorem Shape.eval_window (shape : Shape lib region root named live removed legacy) {done front back visited : List String}
    {b : String} {remaining : Nat} (position : live = done ++ (front ++ b :: back))
    (unseen : ∀ s ∈ front ++ b :: back ++ removed ++ legacy, s ∉ visited)
    (distinct : (front ++ b :: back ++ removed ++ legacy).Nodup) (count : front.length < remaining)
    (stop : front.length + 1 = remaining ∨ old = some b) (unmet : ∀ o ∈ front, old ≠ some o) :
    ∃ seen, eval root (window lib old remaining visited (front ++ b :: back ++ removed ++ legacy).head?) =
      .ok (some ⟨b, (back ++ removed ++ legacy).head?, seen⟩) ∧ ∀ s ∈ back ++ removed ++ legacy, s ∉ seen := by
  induction front generalizing done visited remaining with
  | nil =>
    obtain ⟨fresh, later⟩ := unseen_next unseen distinct
    obtain ⟨remaining, rfl⟩ : ∃ n, remaining = n + 1 := ⟨remaining - 1, by simp at count; omega⟩
    obtain ⟨publishedAt, read⟩ := shape.eval_link position later
    have stops : remaining = 0 ∨ old = some b := stop.imp_left fun last => by simpa using last.symm
    refine ⟨b :: visited, ?_, later⟩
    simp only [List.nil_append, List.cons_append, List.head?_cons, window, fresh, Bool.false_eq_true, if_false]
    rw [Reads.eval_bind_ok read]
    simp only [if_pos stops, Reads.eval_pure]
  | cons s front ih =>
    obtain ⟨fresh, later⟩ := unseen_next unseen distinct
    obtain ⟨remaining, rfl⟩ : ∃ n, remaining = n + 1 := ⟨remaining - 1, by simp at count; omega⟩
    obtain ⟨publishedAt, read⟩ := shape.eval_link position later
    rw [List.length_cons] at count stop
    have goes : ¬ (remaining = 0 ∨ old = some s) := by
      rw [not_or]
      exact ⟨by omega, unmet s List.mem_cons_self⟩
    obtain ⟨seen, found, apart⟩ := ih (show live = (done ++ [s]) ++ (front ++ b :: back) by rw [position]; simp) later
      (List.nodup_cons.mp distinct).2 (Nat.lt_of_succ_lt_succ count) (stop.imp_left Nat.succ.inj)
      fun o member => unmet o (List.mem_cons_of_mem s member)
    refine ⟨seen, ?_, apart⟩
    simp only [List.cons_append, List.head?_cons, window, fresh, Bool.false_eq_true, if_false]
    rw [Reads.eval_bind_ok read]
    simp only [if_neg goes]
    exact found

/-- A chain that ends inside the window has nothing to remove. -/
theorem Shape.eval_window_short (shape : Shape lib region root named live removed legacy) (whole : removed = [])
    {done more visited : List String} {remaining : Nat} (position : live = done ++ more)
    (unseen : ∀ s ∈ more ++ removed ++ legacy, s ∉ visited) (distinct : (more ++ removed ++ legacy).Nodup)
    (short : more.length < remaining) (unmet : ∀ o ∈ more, old ≠ some o) :
    eval root (window lib old remaining visited (more ++ removed ++ legacy).head?) = .ok none := by
  induction more generalizing done visited remaining with
  | nil =>
    obtain ⟨remaining, rfl⟩ : ∃ n, remaining = n + 1 := ⟨remaining - 1, by simp at short; omega⟩
    cases next : ([] ++ removed ++ legacy : List String).head? with
    | none => rfl
    | some s =>
      have fresh : visited.contains s = false := by simpa using unseen s (List.mem_of_mem_head? next)
      have unrecorded : eval root ((Master.member lib s (s :: visited)).zoom fun root => root.snapshots s) = .ok none := by
        rw [Master.eval_member]
        rcases shape.eval_end next (s :: visited) with missing | ⟨there, unrecorded⟩
        · rcases shape.ending with empty | ⟨last, only, files, p, i, found, -⟩
          · rw [whole, empty] at next
            cases next
          · rw [whole, only] at next
            cases next
            have valid : isSnapshotName s = true := shape.names s (by rw [shape.split, only]; simp)
            cases missing.symm.trans (eval_zoom_directory found valid)
        · rw [there]
          exact unrecorded
      simp only [window, fresh, Bool.false_eq_true, if_false]
      rw [Reads.eval_bind_ok unrecorded]
      rfl
  | cons s more ih =>
    obtain ⟨fresh, later⟩ := unseen_next unseen distinct
    obtain ⟨remaining, rfl⟩ : ∃ n, remaining = n + 1 := ⟨remaining - 1, by simp at short; omega⟩
    obtain ⟨publishedAt, read⟩ := shape.eval_link position later
    rw [List.length_cons] at short
    have goes : ¬ (remaining = 0 ∨ old = some s) := by
      rw [not_or]
      exact ⟨by omega, unmet s List.mem_cons_self⟩
    simp only [List.cons_append, List.head?_cons, window, fresh, Bool.false_eq_true, if_false]
    rw [Reads.eval_bind_ok read]
    simp only [if_neg goes]
    exact ih (show live = (done ++ [s]) ++ more by rw [position]; simp) later (List.nodup_cons.mp distinct).2 (by omega)
      fun o member => unmet o (List.mem_cons_of_mem s member)

/-- How many turns the second loop of `prune_within` takes: it also asks for what comes after the last
recorded snapshot. -/
def turns (behind removed legacy : List String) : Nat := behind.length + if removed ++ legacy = [] then 0 else 1

/-- Within its limit the second loop lists everything behind the boundary, and else it fails. -/
theorem Shape.eval_candidates (shape : Shape lib region root named live removed legacy)
    {done more visited : List String} {room : Nat} (position : live = done ++ more)
    (unseen : ∀ s ∈ more ++ removed ++ legacy, s ∉ visited) (distinct : (more ++ removed ++ legacy).Nodup) :
    eval root (candidates lib room visited (more ++ removed ++ legacy).head?) =
      if turns more removed legacy ≤ room then .ok more else .error .limit := by
  induction more generalizing done visited room with
  | nil =>
    rw [List.nil_append] at unseen ⊢
    unfold turns
    cases next : (removed ++ legacy).head? with
    | none =>
      rw [if_pos (List.head?_eq_none_iff.mp next), if_pos (by simp)]
      cases room <;> rfl
    | some s =>
      have more : removed ++ legacy ≠ [] := fun empty => by rw [empty] at next; cases next
      rw [if_neg more]
      cases room with
      | zero => rfl
      | succ room =>
        have fresh : visited.contains s = false := by simpa using unseen s (List.mem_of_mem_head? next)
        rw [if_pos (by simp)]
        simp only [candidates, fresh, Bool.false_eq_true, if_false]
        rw [Reads.eval_bind_ok (Reads.eval_attempt _)]
        rcases shape.eval_end next (s :: visited) with missing | ⟨there, unrecorded⟩
        · rw [missing]
          rfl
        · rw [there]
          simp only [candidateRead]
          rw [Reads.eval_bind_ok unrecorded]
          rfl
  | cons s more ih =>
    obtain ⟨fresh, later⟩ := unseen_next unseen distinct
    cases room with
    | zero =>
      rw [if_neg (by simp [turns])]
      rfl
    | succ room =>
      obtain ⟨publishedAt, read⟩ := shape.eval_link position later
      obtain ⟨there, recorded⟩ := member_of_eval read
      have rest : eval root (candidates lib room (s :: visited) (more ++ removed ++ legacy).head?) =
          if turns more removed legacy ≤ room then .ok more else .error .limit :=
        ih (show live = (done ++ [s]) ++ more by rw [position]; simp) later (List.nodup_cons.mp distinct).2
      simp only [List.cons_append, List.head?_cons, candidates, fresh, Bool.false_eq_true, if_false]
      rw [Reads.eval_bind_ok (Reads.eval_attempt _), there]
      simp only [candidateRead]
      rw [Reads.eval_bind_ok recorded]
      simp only
      rw [Reads.eval_bind, rest]
      have count : turns (s :: more) removed legacy ≤ room + 1 ↔ turns more removed legacy ≤ room := by
        simp only [turns, List.length_cons]
        omega
      by_cases fits : turns more removed legacy ≤ room
      · rw [if_pos fits, if_pos (count.mpr fits)]
        rfl
      · rw [if_neg fits, if_neg fun long => fits (count.mp long)]
        rfl

/-- What readers were told is the boundary. -/
def Told (lib : Serde B) (root : Root B) (old : Option String) : Prop :=
  root.retention = old.map fun b => .file (lib.ofRetention ⟨1, b⟩)

/-- The record is read back as it was written, so it holds one boundary at most. -/
theorem Told.unique {other : Option String} (told : Told lib root old) (again : Told lib root other) : old = other := by
  unfold Told at told again
  cases old with
  | none =>
    cases other with
    | none => rfl
    | some b => cases told.symm.trans again
  | some a =>
    cases other with
    | none => cases told.symm.trans again
    | some b => rw [Bounded.unique (told : Bounded lib root a) again]

theorem Shape.eval_told (shape : Shape lib region root named live removed legacy) (told : Told lib root old) :
    eval root (retentionBoundary lib) = .ok old ∧ (removed ≠ [] → ∃ b ∈ live, old = some b) := by
  rcases shape.eval_boundary with ⟨absent, none, read⟩ | ⟨b, member, there, read⟩
  · have same : old = Option.none := told.unique absent
    exact ⟨by rw [read, same], fun more => absurd none more⟩
  · have same : old = some b := told.unique there
    exact ⟨by rw [read, same], fun _ => ⟨b, member, same⟩⟩

/-- The head part of a chain and its backlog make up the chain. -/
theorem spanned_append (old : Option String) (keep : Nat) (live : List String) :
    spanned old keep live ++ backlog old keep live = live := by
  have inside : spanned old keep live <+: live := by
    rcases spanned_cases old keep live with ⟨front, b, back, rfl, span, -⟩ | ⟨span, -⟩ | rfl
    · exact ⟨back, by rw [span]; simp⟩
    · exact ⟨[], by rw [span, List.append_nil]⟩
    · rw [spanned]
      exact List.nil_prefix
  obtain ⟨back, split⟩ := inside
  unfold backlog
  generalize spanned old keep live = front at split ⊢
  rw [← split, List.drop_left]

/-- What a pass reads. -/
theorem Shape.eval_prunePlan (shape : Shape lib region root named live removed legacy) (told : Told lib root old)
    (valid : 2 ≤ keep ∧ keep ≤ 10000) :
    ∃ b, (backlog old keep live ≠ [] → ∃ front, spanned old keep live = front ++ [b]) ∧
      eval root (prunePlan lib keep) =
        if turns (backlog old keep live) removed legacy ≤ 10000 then
          .ok (if backlog old keep live = [] then none else some ⟨old, b, backlog old keep live⟩)
        else .error .limit := by
  obtain ⟨retained, inside⟩ := shape.eval_told told
  have distinct := shape.distinct
  rw [shape.split] at distinct
  have parts := spanned_append old keep live
  unfold prunePlan
  rw [if_neg (by omega), Reads.eval_bind_ok shape.eval_predecessor, shape.split]
  cases first : (live ++ removed ++ legacy).head? with
  | none =>
    obtain ⟨rfl, rfl, rfl⟩ := by simpa using List.head?_eq_none_iff.mp first
    have empty : backlog old keep [] = [] := List.drop_nil
    refine ⟨"", fun more => absurd empty more, ?_⟩
    rw [empty, if_pos (by simp [turns]), if_pos rfl]
    rfl
  | some head =>
    simp only
    rw [Reads.eval_bind_ok retained, ← first]
    rcases spanned_cases old keep live with ⟨front, b, back, split, span, count, stop, unmet⟩ | ⟨span, short, unmet⟩ | none
    · have behind : backlog old keep live = back := by
        rw [span] at parts
        exact List.append_cancel_left (parts.trans (split.trans (List.append_cons ..)))
      rw [behind, span]
      refine ⟨b, fun _ => ⟨front, rfl⟩, ?_⟩
      rw [split] at distinct ⊢
      obtain ⟨seen, read, apart⟩ := shape.eval_window (show live = [] ++ (front ++ b :: back) from split)
        (fun s _ => (List.not_mem_nil : s ∉ [])) distinct count stop unmet
      rw [Reads.eval_bind_ok read]
      simp only
      have rest : (back ++ removed ++ legacy).Nodup := by
        rw [List.append_assoc, List.append_assoc] at distinct
        rw [List.append_assoc]
        exact (List.nodup_cons.mp (List.nodup_append.mp distinct).2.1).2
      rw [Reads.eval_bind, shape.eval_candidates (show live = (front ++ [b]) ++ back by rw [split]; simp) apart rest]
      by_cases fits : turns back removed legacy ≤ 10000
      · rw [if_pos fits, if_pos fits]
        change eval root (if back.isEmpty then _ else _) = _
        cases back with
        | nil => rfl
        | cons s back => rfl
      · rw [if_neg fits, if_neg fits]
        rfl
    · have behind : backlog old keep live = [] := by
        rw [span] at parts
        exact List.append_right_eq_self.mp parts
      have whole : removed = [] := by
        by_contra more
        obtain ⟨b, member, told⟩ := inside more
        exact unmet b member told
      rw [behind]
      refine ⟨"", fun more => absurd rfl more, ?_⟩
      have read := shape.eval_window_short whole (show live = [] ++ live from rfl)
        (fun s _ => (List.not_mem_nil : s ∉ [])) distinct short unmet
      rw [Reads.eval_bind_ok read, if_pos (by simp only [turns, List.length_nil]; split <;> omega)]
      rfl
    · omega

/-- Snapshots leave from the old end. -/
theorem Shape.remove_last {last : List String} (shape : Shape lib region root named (live ++ last) removed legacy) {b : String}
    (inside : b ∈ live) (bounded : Bounded lib root b) :
    Shape lib region (last.reverse.foldl Root.without root) named live (last ++ removed) legacy ∧
      Bounded lib (last.reverse.foldl Root.without root) b ∧
      ∀ s ∉ last, (last.reverse.foldl Root.without root).snapshots s = root.snapshots s := by
  induction last using List.reverseRecOn generalizing root removed with
  | nil =>
    rw [List.append_nil] at shape
    exact ⟨shape, bounded, fun _ _ => rfl⟩
  | append_singleton last s ih =>
    rw [← List.append_assoc] at shape
    obtain ⟨after, still, others⟩ := ih (shape.remove (List.mem_append_left last inside) bounded) bounded
    rw [List.reverse_append, List.append_assoc]
    refine ⟨after, still, fun other member => ?_⟩
    rw [List.mem_append, not_or] at member
    exact (others other member.1).trans (Root.without_other fun same => member.2 (List.mem_singleton.mpr same))

/-- A recorded boundary that is met before the count ends the head part, however large `keep` is. -/
theorem spanned_bounded {front back : List String} {b : String} (count : front.length < keep) (unmet : b ∉ front) :
    spanned (some b) keep (front ++ b :: back) = front ++ [b] := by
  induction front generalizing keep with
  | nil =>
    obtain ⟨keep, rfl⟩ : ∃ n, keep = n + 1 := ⟨keep - 1, by simp at count; omega⟩
    rw [List.nil_append, spanned, if_pos rfl]
    rfl
  | cons s front ih =>
    obtain ⟨keep, rfl⟩ : ∃ n, keep = n + 1 := ⟨keep - 1, by simp at count; omega⟩
    rw [List.mem_cons, not_or] at unmet
    have goes : some b ≠ some s := fun same => unmet.1 (Option.some.inj same)
    rw [List.cons_append, spanned, if_neg goes, ih (Nat.lt_of_succ_lt_succ count) unmet.2]
    rfl

/-- The disk between two passes: of the snapshots behind the boundary the `left` newest are there. -/
structure Between (lib : Serde B) (region : Region) (root now : Root B) (named window behind removed legacy : List String)
    (keep left : Nat) : Prop where
  within : left ≤ behind.length
  shape : Shape lib region now named (window ++ behind.take left) (behind.drop left ++ removed) legacy
  told : ∃ old, Told lib now old ∧ spanned old keep (window ++ behind.take left) = window
  others : ∀ s ∉ behind, now.snapshots s = root.snapshots s
  bounded : left < behind.length → ∃ b, window.getLast? = some b ∧ Bounded lib now b

/-- Before the first pass everything behind the boundary is still there. -/
theorem Shape.between (shape : Shape lib region root named live removed legacy) (keep : Nat) (told : Told lib root old) :
    Between lib region root root named (spanned old keep live) (backlog old keep live) removed legacy keep
      (backlog old keep live).length where
  within := Nat.le_refl _
  shape := by
    rw [List.take_length, List.drop_length, spanned_append]
    exact shape
  told := ⟨old, told, by rw [List.take_length, spanned_append]⟩
  others _ _ := rfl
  bounded short := absurd short (Nat.lt_irrefl _)

/-- A pass keeps `keep` snapshots at most. -/
theorem length_spanned (old : Option String) (keep : Nat) (live : List String) : (spanned old keep live).length ≤ keep := by
  rcases spanned_cases old keep live with ⟨front, b, back, -, span, count, -⟩ | ⟨span, short, -⟩ | rfl
  · rw [span, List.length_append]
    exact count
  · rw [span]
    exact Nat.le_of_lt short
  · exact Nat.le_refl _

variable {now : Root B} {window behind : List String} {left : Nat}

/-- One pass removes as many as its budget allows, and leaves nothing else changed than the boundary. -/
theorem Between.pass (between : Between lib region root now named window behind removed legacy keep left)
    (budget : Nat) (valid : 2 ≤ keep ∧ keep ≤ 10000)
    (fits : turns (behind.take left) (behind.drop left ++ removed) legacy ≤ 10000) :
    (pruneWithin lib keep budget now).1 = .ok (min budget left) ∧
    Between lib region root (pruneWithin lib keep budget now).2 named window behind removed legacy keep (left - budget) ∧
    (left = 0 → (pruneWithin lib keep budget now).2 = now) := by
  obtain ⟨old, told, span⟩ := between.told
  have counted : (behind.take left).length = left := List.length_take_of_le between.within
  have rest : backlog old keep (window ++ behind.take left) = behind.take left := by
    rw [backlog, span, List.drop_left]
  obtain ⟨b, last, read⟩ := between.shape.eval_prunePlan told valid
  rw [rest] at last read
  rw [if_pos fits] at read
  by_cases none : behind.take left = []
  · rw [if_pos none] at read
    have zero : left = 0 := by rw [← counted, none]; rfl
    subst zero
    unfold pruneWithin
    rw [read]
    exact ⟨by rw [Nat.min_zero], by rwa [Nat.zero_sub], fun _ => rfl⟩
  rw [if_neg none] at read
  have some_left : left ≠ 0 := fun zero => none (by rw [zero]; rfl)
  obtain ⟨front, ends⟩ := last none
  rw [span] at ends
  have inside : b ∈ window ++ behind.take (left - budget) := by simp [ends]
  have removals : (behind.take left).reverse.take budget = ((behind.take left).drop (left - budget)).reverse := by
    rw [List.take_reverse, counted]
  have parts : window ++ behind.take left =
      (window ++ behind.take (left - budget)) ++ (behind.take left).drop (left - budget) := by
    have shorter : behind.take (left - budget) = (behind.take left).take (left - budget) := by
      rw [List.take_take, Nat.min_eq_left (Nat.sub_le ..)]
    rw [shorter, List.append_assoc, List.take_append_drop]
  have gone : (behind.take left).drop (left - budget) ++ (behind.drop left ++ removed) =
      behind.drop (left - budget) ++ removed := by
    rw [← List.append_assoc, ← List.drop_append_of_le_length (by omega), List.take_append_drop]
  have bounds : ∃ bounded : Root B, Bounded lib bounded b ∧
      Shape lib region bounded named (window ++ behind.take left) (behind.drop left ++ removed) legacy ∧
      bounded.snapshots = now.snapshots ∧
      pruneWithin lib keep budget now = (.ok ((behind.take left).reverse.take budget).length,
        ((behind.take left).reverse.take budget).foldl Root.without bounded) := by
    unfold pruneWithin
    rw [read]
    by_cases same : old = some b
    · refine ⟨now, ?_, between.shape, rfl, ?_⟩
      · rw [same] at told
        exact told
      · simp only [if_pos same]
    · refine ⟨{ now with retention := some (.file (lib.ofRetention ⟨1, b⟩)) }, rfl,
        between.shape.bound (by simp [ends]), rfl, ?_⟩
      simp only [if_neg same]
  obtain ⟨bounded, recorded, shape, unchanged, result⟩ := bounds
  rw [parts] at shape
  rw [result, removals]
  obtain ⟨after, still, others⟩ := shape.remove_last inside recorded
  rw [gone] at after
  refine ⟨?_, ⟨(Nat.sub_le ..).trans between.within, after, ⟨some b, still, ?_⟩, fun s member => ?_, fun _ => ⟨b, ?_, still⟩⟩, fun zero => absurd zero some_left⟩
  · rw [List.length_reverse, List.length_drop, counted]
    exact congrArg Except.ok (by omega)
  · have most := length_spanned old keep (window ++ behind.take left)
    rw [span, ends, List.length_append] at most
    have distinct := shape.distinct
    rw [shape.split, ends] at distinct
    have unmet : b ∉ front := by
      intro member
      simp only [List.append_assoc, List.nodup_append] at distinct
      exact distinct.2.2 b member b (by simp) rfl
    rw [ends, List.append_assoc]
    exact spanned_bounded most unmet
  · refine (others s fun inside => member ?_).trans ((congrFun unchanged s).trans (between.others s member))
    exact List.mem_of_mem_take (List.mem_of_mem_drop inside)
  · rw [ends, List.getLast?_concat]

/-- Of the backlog just the `left` newest have a directory, which is what the number of those standing counts. -/
theorem Between.standing_eq (between : Between lib region root now named window behind removed legacy keep left) :
    standing now behind = left := by
  have there : ∀ s ∈ behind.take left, (now.snapshots s).isSome = true := by
    intro s member
    obtain ⟨i, position⟩ := List.mem_iff_getElem?.mp (List.mem_append_right window member)
    obtain ⟨files, there, -⟩ := between.shape.linked i s position
    rw [there]
    rfl
  have gone : ∀ s ∈ behind.drop left, ¬ (now.snapshots s).isSome = true := by
    intro s member
    rw [between.shape.gone s (List.mem_append_left removed member)]
    exact Bool.false_ne_true
  unfold standing
  conv_lhs => rw [← List.take_append_drop left behind]
  rw [List.countP_append, List.countP_eq_length.mpr there, List.countP_eq_zero.mpr gone,
    List.length_take_of_le between.within, Nat.add_zero]

/-- The walk gets no longer as the backlog shrinks: what a pass has removed is asked for in one more
turn at most. -/
theorem turns_fewer {fewer : Nat} (fits : turns (behind.take left) (behind.drop left ++ removed) legacy ≤ 10000)
    (within : left ≤ behind.length) (less : fewer ≤ left) :
    turns (behind.take fewer) (behind.drop fewer ++ removed) legacy ≤ 10000 := by
  rcases Nat.lt_or_eq_of_le less with shorter | rfl
  · unfold turns at fits ⊢
    rw [List.length_take_of_le (less.trans within)]
    rw [List.length_take_of_le within] at fits
    split <;> omega
  · exact fits

/-- Each pass removes the oldest `budget` of the backlog, so `n` passes leave its length less `n` times the budget;
the walk that fits at first fits every time. By induction on the passes. -/
theorem Between.passes (between : Between lib region root root named window behind removed legacy keep behind.length)
    (budget : Nat) (valid : 2 ≤ keep ∧ keep ≤ 10000) (fits : turns behind removed legacy ≤ 10000) (n : Nat) :
    Between lib region root (passes lib keep budget n root) named window behind removed legacy keep
      (behind.length - n * budget) ∧
    turns (behind.take (behind.length - n * budget)) (behind.drop (behind.length - n * budget) ++ removed) legacy ≤ 10000 := by
  have start : turns (behind.take behind.length) (behind.drop behind.length ++ removed) legacy ≤ 10000 := by
    rw [List.take_length, List.drop_length]
    exact fits
  have shorter : ∀ n, turns (behind.take (behind.length - n * budget))
      (behind.drop (behind.length - n * budget) ++ removed) legacy ≤ 10000 :=
    fun n => turns_fewer start (Nat.le_refl _) (Nat.sub_le ..)
  refine ⟨?_, shorter n⟩
  induction n with
  | zero =>
    rw [Nat.zero_mul, Nat.sub_zero]
    exact between
  | succ n ih =>
    obtain ⟨-, after, -⟩ := ih.pass budget valid (shorter n)
    rw [Nat.succ_mul, ← Nat.sub_sub]
    exact after

/-- Repeated passes remove everything behind the boundary, within the budget of each, and then nothing. -/
structure Converges (lib : Serde B) (region : Region) (root : Root B) (named window behind removed legacy : List String)
    (keep budget : Nat) : Prop where
  removes : ∀ n, (pruneWithin lib keep budget (Master.passes lib keep budget n root)).1 =
    .ok (min budget (standing (Master.passes lib keep budget n root) behind))
  fewer : ∀ n, standing (Master.passes lib keep budget (n + 1) root) behind =
    standing (Master.passes lib keep budget n root) behind - budget
  settles : ∃ n, Shape lib region (Master.passes lib keep budget n root) named window (behind ++ removed) legacy ∧
    (∀ s ∉ behind, (Master.passes lib keep budget n root).snapshots s = root.snapshots s) ∧
    (behind ≠ [] → ∃ b, window.getLast? = some b ∧ Bounded lib (Master.passes lib keep budget n root) b) ∧
    ∀ m, n ≤ m → Master.passes lib keep budget m root = Master.passes lib keep budget n root

/-- Retention converges from a committed chain exactly when the second loop of the first pass ends within
its limit. -/
theorem retention_converges (shape : Shape lib region root named live removed legacy) (told : Told lib root old)
    (valid : 2 ≤ keep ∧ keep ≤ 10000) (positive : 1 ≤ budget) :
    Converges lib region root named (spanned old keep live) (backlog old keep live) removed legacy keep budget ↔
      turns (backlog old keep live) removed legacy ≤ 10000 := by
  constructor
  · intro converges
    by_contra long
    have first := converges.removes 0
    obtain ⟨b, -, read⟩ := shape.eval_prunePlan told valid
    rw [if_neg long] at read
    unfold Master.passes pruneWithin at first
    rw [read] at first
    cases first
  · intro fits
    have start := shape.between keep told
    generalize spanned old keep live = window, backlog old keep live = behind at start fits
    have between := fun n => (start.passes budget valid fits n).1
    have pass := fun n => (between n).pass budget valid (start.passes budget valid fits n).2
    refine ⟨fun n => ?_, fun n => ?_, behind.length, ?_⟩
    · rw [(between n).standing_eq]
      exact (pass n).1
    · rw [(between n).standing_eq, (between (n + 1)).standing_eq, Nat.succ_mul, Nat.sub_sub]
    · have zero : ∀ n, behind.length ≤ n → behind.length - n * budget = 0 := by
        intro n late
        have enough := Nat.mul_le_mul late positive
        omega
      have settled := between behind.length
      rw [zero _ (Nat.le_refl _)] at settled
      refine ⟨?_, settled.others, fun some_ => settled.bounded (List.length_pos_of_ne_nil some_), fun m late => ?_⟩
      · have shape := settled.shape
        rwa [List.take_zero, List.append_nil, List.drop_zero] at shape
      · induction m, late using Nat.le_induction with
        | base => rfl
        | succ m late ih =>
          rw [← ih]
          exact (pass m).2.2 (zero m late)

/-- A directory of the own region passes the check before a publication, which finds the head as
the predecessor. -/
theorem Shape.eval_publishCheck_ok (shape : Shape lib region root named live removed legacy) :
    eval root (publishCheck lib region) = .ok named.head? := by
  unfold publishCheck
  rw [Reads.eval_bind_ok shape.eval_predecessor]
  cases first : named.head? with
  | none => rfl
  | some s =>
    obtain ⟨p, accepted, same⟩ := shape.head_committed first
    have found : eval root (snapshotRegion lib s) = .ok p.region := by
      unfold snapshotRegion
      rw [Reads.eval_bind_ok accepted]
      rfl
    simp only
    rw [Reads.eval_bind_ok found, same, bne_self_eq_false]
    rfl

def hexDigits (n : Nat) : List Char :=
  [Nat.digitChar (n / 4096 % 16), Nat.digitChar (n / 256 % 16), Nat.digitChar (n / 16 % 16), Nat.digitChar (n % 16)]

theorem isLowerHex_digitChar : ∀ d < 16, isLowerHex (Nat.digitChar d) = true := by decide

theorem digitChar_inj : ∀ d < 16, ∀ e < 16, Nat.digitChar d = Nat.digitChar e → d = e := by decide

theorem hexDigits_hex (n : Nat) : (List.replicate 28 '0' ++ hexDigits n).all isLowerHex = true := by
  have digit : ∀ m, isLowerHex (Nat.digitChar (m % 16)) = true :=
    fun m => isLowerHex_digitChar _ (Nat.mod_lt _ (by decide))
  have zero : isLowerHex '0' = true := by decide
  simp [zero, hexDigits, digit]

def numbered (n : Nat) : Uuid := ⟨List.replicate 28 '0' ++ hexDigits n, rfl, hexDigits_hex n⟩

/-- Four hexadecimal digits tell the numbers below 65536 apart. -/
theorem hexDigits_inj {m n : Nat} (few : m < 65536) (also : n < 65536) (same : hexDigits m = hexDigits n) : m = n := by
  have digit : ∀ a b, Nat.digitChar (a % 16) = Nat.digitChar (b % 16) → a % 16 = b % 16 :=
    fun a b => digitChar_inj _ (Nat.mod_lt _ (by decide)) _ (Nat.mod_lt _ (by decide))
  simp only [hexDigits, List.cons.injEq, and_true] at same
  have first := digit _ _ same.1
  have second := digit _ _ same.2.1
  have third := digit _ _ same.2.2.1
  have fourth := digit _ _ same.2.2.2
  omega

theorem numbered_inj {m n : Nat} (few : m < 65536) (also : n < 65536)
    (same : snapshotName (numbered m) = snapshotName (numbered n)) : m = n := by
  have texts := String.ofList_injective same
  exact hexDigits_inj few also (List.append_cancel_left (List.append_cancel_left texts))

def numberedNames (n : Nat) : List String := ((List.range n).map fun i => snapshotName (numbered i)).reverse

theorem numberedNames_succ (n : Nat) : numberedNames (n + 1) = snapshotName (numbered n) :: numberedNames n := by
  simp [numberedNames, List.range_succ]

theorem not_mem_numberedNames {n : Nat} (few : n < 65536) : snapshotName (numbered n) ∉ numberedNames n := by
  intro member
  simp only [numberedNames, List.mem_reverse, List.mem_map, List.mem_range] at member
  obtain ⟨i, less, same⟩ := member
  have again := numbered_inj (by omega) few same
  omega

/-- The steps of `publish`, however it ends. -/
def Label.publication : Label lib → Prop
  | .publish _ _ => True
  | .record => True
  | .install => True
  | .point => True
  | .stop => True
  | _ => False

/-- Imports that are ready to be published. -/
structure Supply (lib : Serde B) where
  prepared : (n : Nat) → PreparedImport lib
  named : ∀ n, (prepared n).snapshot = snapshotName (numbered n)
  region : ∀ n, (prepared n).draft.receipt.region = .jp

/-- `n` publications and no pass. -/
structure Unpruned (w : World lib) (n : Nat) : Prop where
  idle : w.phase = .idle
  named : w.named = numberedNames n
  shape : Shape lib .jp w.root (numberedNames n) (numberedNames n) [] []
  told : Told lib w.root none
  others : ∀ s ∉ numberedNames n, w.root.snapshots s = none

/-- A publication without any pass adds the next name to the chain and nothing is removed. -/
theorem Unpruned.publish {w : World lib} {n : Nat} (unpruned : Unpruned w n) (few : n < 65536) (supply : Supply lib) :
    ∃ x, Run.exec step w [.publish (supply.prepared n) n, .record, .install, .point] = some x ∧ Unpruned x (n + 1) := by
  have valid := isSnapshotName_snapshotName (numbered n)
  have new := not_mem_numberedNames few
  have fresh : Fresh w.root (numberedNames n) (snapshotName (numbered n)) := ⟨unpruned.others _ new, new, valid⟩
  let files := recorded (supply.prepared n) (numberedNames n).head? n
  let disk := w.root.installed (snapshotName (numbered n)) files
  have there : Member lib .jp disk (snapshotName (numbered n)) (numberedNames n).head? := by
    refine ⟨files, Function.update_self .., ?_⟩
    rw [← supply.region n, ← supply.named n]
    exact recorded_prepared (supply.prepared n) _ n
  have shape : Shape lib .jp disk (numberedNames n) (numberedNames n) [] [] := unpruned.shape.install fresh
  have after := shape.point new valid there
  let pointed := { disk with current := some (.file (lib.ofString (snapshotName (numbered n)))) }
  refine ⟨{ root := pointed, named := snapshotName (numbered n) :: w.named }, ?_, rfl, ?_, ?_, ?_, fun s member => ?_⟩
  · have unused : w.fresh (supply.prepared n).snapshot = true := by
      rw [supply.named]
      exact World.fresh_iff.mpr ⟨fresh.1, by rw [unpruned.named]; exact new⟩
    have checked : w.publish (supply.prepared n) n =
        { w with phase := .checked (supply.prepared n) (numberedNames n).head? n } := by
      unfold World.publish
      rw [supply.region, unpruned.shape.eval_publishCheck_ok]
    simp only [Run.exec, step, unpruned.idle]
    rw [if_pos unused, checked]
    simp only [Option.bind_some, supply.named]
    rfl
  · rw [numberedNames_succ, unpruned.named]
  · rw [numberedNames_succ]
    exact after
  · exact unpruned.told
  · rw [numberedNames_succ, List.mem_cons, not_or] at member
    exact (Root.installed_other member.1).trans (unpruned.others s member.2)

theorem Unpruned.start : Unpruned ({ root := {} } : World lib) 0 := by
  refine ⟨rfl, rfl, ⟨rfl, rfl, ?_, ?_, ?_, ?_, Or.inl rfl, Or.inl ⟨rfl, rfl⟩⟩, rfl, fun _ _ => rfl⟩ <;> simp [numberedNames]

/-- By induction, any number of such publications can follow while the names last. -/
theorem Unpruned.more {w : World lib} {n : Nat} (unpruned : Unpruned w n) (supply : Supply lib) {count : Nat}
    (few : n + count < 65536) :
    ∃ x, Run.Reach step (fun _ label => label.publication) w x ∧ Unpruned x (n + count) := by
  induction count with
  | zero => exact ⟨w, .start, unpruned⟩
  | succ count ih =>
    obtain ⟨x, reach, unpruned⟩ := ih (by omega)
    obtain ⟨y, ran, after⟩ := unpruned.publish (by omega) supply
    refine ⟨y, reach.exec_allowed ran fun label member s => ?_, after⟩
    revert label
    simp [Label.publication]

def sampleSupply : Supply sampleSerde where
  prepared n := samplePrepared (snapshotName (numbered n)) (isSnapshotName_snapshotName _)
  named _ := rfl
  region _ := rfl

theorem reach_unpruned {n : Nat} (few : n < 65536) :
    ∃ w, Run.Reach step (fun _ _ => True) ({ root := {} } : World sampleSerde) w ∧ Unpruned w n := by
  obtain ⟨w, reach, unpruned⟩ := Unpruned.start.more sampleSupply (show 0 + n < 65536 by omega)
  rw [Nat.zero_add] at unpruned
  exact ⟨w, reach.weaken fun _ _ _ => trivial, unpruned⟩

theorem length_numberedNames (n : Nat) : (numberedNames n).length = n := by
  rw [numberedNames, List.length_reverse, List.length_map, List.length_range]

/-- Where nobody was told of a boundary, the backlog is what lies behind the newest `keep`. -/
theorem length_backlog (keep : Nat) (live : List String) : (backlog none keep live).length = live.length - keep := by
  unfold backlog
  rcases spanned_cases none keep live with ⟨front, b, back, rfl, span, -, stop, -⟩ | ⟨span, short, -⟩ | rfl
  · have last : front.length + 1 = keep := stop.resolve_right (by simp)
    rw [span, List.length_drop, List.length_append, List.length_append, List.length_cons, List.length_singleton]
    omega
  · rw [span, List.length_drop]
    omega
  · rw [spanned]
    rfl

/-- With 10,001 snapshots behind the boundary no pass removes any. -/
theorem retention_stuck : ∃ w, Run.Reach step (fun _ _ => True) ({ root := {} } : World sampleSerde) w ∧
    w.named.length = 10003 ∧ Shape sampleSerde .jp w.root w.named w.named [] [] ∧ Told sampleSerde w.root none ∧
    (∀ n, pruneWithin sampleSerde 2 64 (passes sampleSerde 2 64 n w.root) = (.error .limit, w.root)) ∧
    ¬ Converges sampleSerde .jp w.root w.named (spanned none 2 w.named) (backlog none 2 w.named) [] [] 2 64 := by
  obtain ⟨w, reach, unpruned⟩ := reach_unpruned (n := 10003) (by omega)
  have shape := unpruned.shape
  rw [← unpruned.named] at shape
  have counted : w.named.length = 10003 := by rw [unpruned.named, length_numberedNames]
  have long : ¬ turns (backlog none 2 w.named) [] [] ≤ 10000 := by
    rw [turns, length_backlog, counted]
    decide
  obtain ⟨b, -, read⟩ := shape.eval_prunePlan unpruned.told (show 2 ≤ 2 ∧ 2 ≤ 10000 by decide)
  rw [if_neg long] at read
  have first : pruneWithin sampleSerde 2 64 w.root = (.error .limit, w.root) := by
    unfold pruneWithin
    rw [read]
  have still : ∀ n, passes sampleSerde 2 64 n w.root = w.root := by
    intro n
    induction n with
    | zero => rfl
    | succ n ih => rw [passes, ih, first]
  refine ⟨w, reach, counted, shape, unpruned.told, fun n => by rw [still, first], fun converges => ?_⟩
  have removed := converges.removes 0
  rw [still, first] at removed
  cases removed

theorem retention_converges_five : ∃ w, Run.Reach step (fun _ _ => True) ({ root := {} } : World sampleSerde) w ∧
    w.named.length = 5 ∧
    Converges sampleSerde .jp w.root w.named (spanned none 2 w.named) (backlog none 2 w.named) [] [] 2 1 := by
  obtain ⟨w, reach, unpruned⟩ := reach_unpruned (n := 5) (by omega)
  have shape := unpruned.shape
  rw [← unpruned.named] at shape
  have counted : w.named.length = 5 := by rw [unpruned.named, length_numberedNames]
  have short : turns (backlog none 2 w.named) [] [] ≤ 10000 := by
    rw [turns, length_backlog, counted]
    decide
  exact ⟨w, reach, counted, (retention_converges shape unpruned.told (by decide) (by decide)).mpr short⟩

end SiriusProxy.Master
