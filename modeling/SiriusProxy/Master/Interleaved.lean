import SiriusProxy.Master.Fading
import SiriusProxy.Master.Retention

namespace SiriusProxy.Master
open Reads (eval run Fades)

variable {B : Type} {lib : Serde B} {root : Root B} {plan : Plan} {roots : Nat → Root B}

/-- A snapshot that is found has an accepted name and is a directory. -/
theorem directory_of_eval {s : String} (read : eval root ((snapshotDirectory s).zoom fun root => root.snapshots s) = .ok ()) :
    isSnapshotName s = true ∧ ∃ files, root.snapshots s = some (.directory files) := by
  rw [Reads.eval_zoom] at read
  unfold snapshotDirectory at read
  split at read
  · cases read
  · rename_i named
    simp only [Bool.not_eq_true', Bool.or_eq_true, not_or, Bool.not_eq_false] at named
    refine ⟨by rw [isSnapshotName, named.1, named.2]; rfl, ?_⟩
    cases found : root.snapshots s with
    | none =>
      rw [found] at read
      cases read
    | some place =>
      cases place with
      | other =>
        rw [found] at read
        cases read
      | directory files => exact ⟨files, rfl⟩

/-- Its membership is the look at the directory and then at its record, in this order. -/
theorem member_of_eval {s : String} {visited : List String} {record : Option Publication}
    (read : eval root ((member lib s visited).zoom fun root => root.snapshots s) = .ok record) :
    eval root ((snapshotDirectory s).zoom fun root => root.snapshots s) = .ok () ∧
      eval root ((publication lib s visited).zoom fun root => root.snapshots s) = .ok record := by
  rw [Master.eval_member] at read
  cases there : eval root ((snapshotDirectory s).zoom fun root => root.snapshots s) with
  | error e =>
    rw [there] at read
    cases read
  | ok u =>
    rw [there] at read
    exact ⟨rfl, read⟩

/-- One turn of the first loop of `prune_within`. -/
theorem window_step {old : Option String} {remaining : Nat} {visited : List String} {next : Option String} {found : Window}
    (read : eval root (window lib old remaining visited next) = .ok (some found)) :
    ∃ rest s record, remaining = rest + 1 ∧ next = some s ∧ s ∉ visited ∧
      eval root ((member lib s (s :: visited)).zoom fun root => root.snapshots s) = .ok (some record) ∧
      ((rest = 0 ∨ old = some s) ∧
          found = { boundary := s, behind := record.previousSnapshot, visited := s :: visited } ∨
        old ≠ some s ∧ eval root (window lib old rest (s :: visited) record.previousSnapshot) = .ok (some found)) := by
  cases next with
  | none => cases remaining <;> cases read
  | some s =>
    cases remaining with
    | zero => cases read
    | succ rest =>
      simp only [window] at read
      split at read
      · cases read
      · rename_i unseen
        obtain ⟨record, there, read⟩ := Reads.eval_bind_eq_ok read
        cases record with
        | none => cases read
        | some record =>
          refine ⟨rest, s, record, rfl, rfl, by simpa using unseen, there, ?_⟩
          simp only at read
          split at read
          · rename_i stops
            cases read
            exact Or.inl ⟨stops, rfl⟩
          · rename_i goes
            rw [not_or] at goes
            exact Or.inr ⟨goes.2, read⟩

/-- A window that is found ends at an accepted name that was not visited before and is visited now, along with
everything that was. -/
theorem window_found {old : Option String} {remaining : Nat} {visited : List String} {next : Option String} {found : Window}
    (read : eval root (window lib old remaining visited next) = .ok (some found)) :
    found.boundary ∉ visited ∧ isSnapshotName found.boundary = true ∧ found.boundary ∈ found.visited ∧
      ∀ s ∈ visited, s ∈ found.visited := by
  induction remaining generalizing visited next with
  | zero =>
    obtain ⟨rest, -, -, impossible, -⟩ := window_step read
    omega
  | succ remaining ih =>
    obtain ⟨rest, s, record, count, -, unseen, there, stop | ⟨-, go⟩⟩ := window_step read
    · obtain ⟨-, rfl⟩ := stop
      have named := (directory_of_eval (member_of_eval there).1).1
      exact ⟨unseen, named, List.mem_cons_self, fun t member => List.mem_cons_of_mem s member⟩
    · have same : rest = remaining := by omega
      subst same
      obtain ⟨apart, named, inside, all⟩ := ih go
      exact ⟨fun member => apart (List.mem_cons_of_mem s member), named, inside,
        fun t member => all t (List.mem_cons_of_mem s member)⟩

theorem window_passes {old : Option String} {remaining : Nat} {visited : List String} {s : String} {next : Option String}
    {found : Window} (read : eval root (window lib old remaining (s :: visited) next) = .ok (some found)) :
    some found.boundary ≠ some s := by
  intro same
  refine (window_found read).1 ?_
  rw [Option.some.inj same]
  exact List.mem_cons_self

/-- The snapshots that a pass may remove are there, and it did not visit them before. -/
theorem candidates_there {room : Nat} {visited : List String} {next : Option String} {found : List String}
    (read : eval root (candidates lib room visited next) = .ok found) :
    ∀ c ∈ found, c ∉ visited ∧ ∃ files, root.snapshots c = some (.directory files) := by
  induction room generalizing visited next found with
  | zero =>
    cases next with
    | none =>
      cases read
      simp
    | some s => cases read
  | succ room ih =>
    cases next with
    | none =>
      cases read
      simp
    | some s =>
      simp only [candidates] at read
      split at read
      · cases read
      · rename_i unseen
        have unseen : s ∉ visited := by simpa using unseen
        obtain ⟨directory, first, read⟩ := Reads.eval_bind_eq_ok read
        rw [Reads.eval_attempt] at first
        cases first
        cases there : eval root ((snapshotDirectory s).zoom fun root => root.snapshots s) with
        | error e =>
          rw [there] at read
          cases e <;> cases read
          simp
        | ok u =>
          rw [there] at read
          obtain ⟨record, -, read⟩ := Reads.eval_bind_eq_ok read
          cases record with
          | none =>
            cases read
            simp
          | some record =>
            obtain ⟨rest, more, read⟩ := Reads.eval_bind_eq_ok read
            cases read
            intro c member
            rcases List.mem_cons.mp member with rfl | later
            · exact ⟨unseen, (directory_of_eval there).2⟩
            · obtain ⟨apart, files⟩ := ih more c later
              exact ⟨fun seen => apart (List.mem_cons_of_mem s seen), files⟩

/-- What the plan of a pass was read from. -/
structure Reading (lib : Serde B) (root : Root B) (plan : Plan) (keep : Nat) (head : String) (found : Window) : Prop where
  most : keep ≤ 10000
  pointer : eval root (predecessor lib) = .ok (some head)
  recorded : eval root (retentionBoundary lib) = .ok plan.old
  window : eval root (window lib plan.old keep [] (some head)) = .ok (some found)
  boundary : plan.boundary = found.boundary
  behind : found.behind.isSome
  there : ∀ c ∈ plan.candidates, c ∉ found.visited ∧ ∃ files, root.snapshots c = some (.directory files)

/-- A plan was made from a head, a boundary and the candidates behind it, each of which was read; this is what a
pass that runs meanwhile can rely on. -/
theorem reading_of_plan {keep : Nat} (read : eval root (prunePlan lib keep) = .ok (some plan)) :
    ∃ head found, Reading lib root plan keep head found := by
  unfold prunePlan at read
  split at read
  · cases read
  · rename_i valid
    obtain ⟨head, pointer, read⟩ := Reads.eval_bind_eq_ok read
    cases head with
    | none => cases read
    | some head =>
      obtain ⟨old, recorded, read⟩ := Reads.eval_bind_eq_ok read
      obtain ⟨found, window, read⟩ := Reads.eval_bind_eq_ok read
      cases found with
      | none => cases read
      | some found =>
        obtain ⟨behind, listed, read⟩ := Reads.eval_bind_eq_ok read
        split at read
        · cases read
        · rename_i some_
          cases read
          refine ⟨head, found, by omega, pointer, recorded, window, rfl, ?_, candidates_there listed⟩
          cases next : found.behind with
          | some s => rfl
          | none =>
            rw [next] at listed
            cases listed
            simp at some_

/-- What a reader sees of one pass: the pointer stays, the boundary is written at most once, and only
candidates go, after the boundary is on record. -/
structure Passing (lib : Serde B) (root : Root B) (plan : Plan) (roots : Nat → Root B) : Prop where
  pointer : ∀ i, (roots i).current = root.current
  spared : ∀ i s, s ∉ plan.candidates → (roots i).snapshots s = root.snapshots s
  fading : ∀ i, ∀ s ∈ plan.candidates, (roots i).snapshots s = root.snapshots s ∨ (roots i).snapshots s = none
  gone : ∀ i j s, i ≤ j → (roots i).snapshots s = none → (roots j).snapshots s = none
  retention : ∀ i, (roots i).retention = root.retention ∨ Bounded lib (roots i) plan.boundary
  stays : ∀ i j, i ≤ j → Bounded lib (roots i) plan.boundary → Bounded lib (roots j) plan.boundary
  first : ∀ i, ∀ s ∈ plan.candidates, (roots i).snapshots s = none →
    Bounded lib (roots i) plan.boundary ∨ plan.old = some plan.boundary

/-- A state of the pass that stays. -/
theorem Passing.still (passing : Passing lib root plan roots) (k : Nat) : Passing lib root plan fun _ => roots k where
  pointer _ := passing.pointer k
  spared _ := passing.spared k
  fading _ := passing.fading k
  gone _ _ _ _ gone := gone
  retention _ := passing.retention k
  stays _ _ _ bounded := bounded
  first _ := passing.first k

/-- What `regular` makes of its two looks. -/
def regularOf (lib : Serde B) (limit : Nat) : Option (Node B) → Option (Node B) → Except MasterError B
  | none, _ => .error (.io true)
  | some (.file _), none => .error (.io true)
  | some (.file _), some (.file bytes) => if limit < lib.length bytes then .error .limit else .ok bytes
  | some (.file _), some _ => .error (.io false)
  | some _, _ => .error .format

/-- A read of one file among changing states: its kind is that of the first look, its content that of
the second. -/
theorem run_regular {σ : Type} {states : Nat → σ} (path : σ → Option (Node B)) (limit i : Nat) :
    (run states i (regular lib path limit)).1 = regularOf lib limit (path (states i)) (path (states (i + 1))) := by
  simp only [regular, run]
  cases path (states i) with
  | none => rfl
  | some node =>
    cases node with
    | directory => rfl
    | other => rfl
    | file bytes =>
      simp only [readBounded, run]
      cases path (states (i + 1)) with
      | none => rfl
      | some node =>
        cases node with
        | directory => rfl
        | other => rfl
        | file bytes =>
          simp only [regularOf]
          split <;> rfl

theorem run_attempt_ok {σ α : Type} {states : Nat → σ} {p : Reads.Prog σ (Option (Node B)) MasterError α} {i : Nat}
    {r : Except MasterError α} (ran : (run states i p).1 = r) :
    run states i p.attempt = (.ok r, (run states i p).2) := by
  rw [Reads.run_attempt, ran]

/-- The boundary is one file and each of its two looks sees some state, so what is read is the record before or
after, or none. -/
theorem run_retentionBoundary (states : Nat → Root B) (i : Nat) (s : Root B) :
    (run states i (retentionBoundary lib)).1 =
      eval s (retentionRead lib (regularOf lib 4096 (states i).retention (states (i + 1)).retention)) := by
  unfold retentionBoundary
  rw [Reads.run_bind_ok (run_attempt_ok (run_regular Root.retention 4096 i))]
  unfold retentionRead
  split
  · rfl
  · rfl
  · split
    · rfl
    · split <;> rfl

theorem eval_retentionBoundary (s : Root B) :
    eval s (retentionBoundary lib) = eval s (retentionRead lib (regularOf lib 4096 s.retention s.retention)) := by
  rw [← Reads.run_still (retentionBoundary lib) (i := 0) (fun _ _ => rfl : ∀ j, 0 ≤ j → (fun _ => s) j = s),
    run_retentionBoundary _ _ s]

/-- A boundary on record is read. -/
theorem eval_bounded {s : Root B} {b : String} (named : isSnapshotName b = true) (bytes : B) :
    eval s (retentionRead lib (regularOf lib 4096 (some (.file bytes)) (some (.file (lib.ofRetention ⟨1, b⟩))))) =
      .ok (some b) := by
  have short : lib.length (lib.ofRetention ⟨1, b⟩) ≤ 4096 := by
    rw [lib.length_ofRetention]
    exact size_retention rfl (safe_of_named named)
  simp only [isSnapshotName, Bool.and_eq_true] at named
  simp only [regularOf, if_neg (Nat.not_lt.mpr short), retentionRead, lib.retention_ofRetention, bne_self_eq_false, named.1,
    named.2, Bool.not_true, Bool.or_self, Bool.false_eq_true, if_false, Reads.eval_pure]

theorem Passing.boundary_after (passing : Passing lib root plan roots) (named : isSnapshotName plan.boundary = true)
    {k i : Nat} (order : k ≤ i) (bounded : Bounded lib (roots k) plan.boundary) :
    (run roots i (retentionBoundary lib)).1 = .ok (some plan.boundary) := by
  have here := passing.stays k i order bounded
  have next := passing.stays k (i + 1) (by omega) bounded
  rw [run_retentionBoundary roots i root, here, next]
  exact eval_bounded named _

/-- The reader gets the boundary of before the pass or its new one. -/
theorem Passing.boundary (passing : Passing lib root plan roots) (named : isSnapshotName plan.boundary = true)
    (recorded : eval root (retentionBoundary lib) = .ok plan.old) (i : Nat) :
    (run roots i (retentionBoundary lib)).1 = .ok plan.old ∨
      (run roots i (retentionBoundary lib)).1 = .ok (some plan.boundary) ∧ ∃ k, Bounded lib (roots k) plan.boundary := by
  rcases passing.retention i with before | bounded
  · rw [run_retentionBoundary roots i root, before]
    rw [eval_retentionBoundary] at recorded
    rcases passing.retention (i + 1) with same | bounded
    · rw [same]
      exact Or.inl recorded
    · cases was : root.retention with
      | none =>
        rw [was] at recorded
        exact Or.inl recorded
      | some node =>
        rw [was] at recorded
        cases node with
        | directory => cases recorded
        | other => cases recorded
        | file bytes =>
          rw [bounded]
          exact Or.inr ⟨eval_bounded named bytes, i + 1, bounded⟩
  · exact Or.inr ⟨passing.boundary_after named (Nat.le_refl i) bounded, i, bounded⟩

/-- A snapshot that the pass spares is read as before it. -/
theorem Passing.spared_run {α : Type} (passing : Passing lib root plan roots) {s : String} (spared : s ∉ plan.candidates)
    (p : Look B α) (i : Nat) : (run roots i (p.zoom fun root => root.snapshots s)).1 =
      eval root (p.zoom fun root => root.snapshots s) := by
  rw [Reads.run_zoom, Reads.eval_zoom]
  exact Reads.run_still p fun k _ => passing.spared k s spared

/-- Any snapshot is read as before the pass, or it is missing and the boundary is on record. -/
theorem Passing.chainStep_run (passing : Passing lib root plan roots)
    (there : ∀ c ∈ plan.candidates, ∃ files, root.snapshots c = some (.directory files)) (scope : Scope) (s : String)
    (visited : List String) (i : Nat) {p : Reader B (Document B × Option Publication)}
    (reads : p = (chainStep lib scope s visited).zoom fun root => root.snapshots s) :
    (run roots i p).1 = eval root p ∨ (∃ e, (run roots i p).1 = .error e ∧ Lost e) ∧
      ((∃ k, k ≤ (run roots i p).2 ∧ Bounded lib (roots k) plan.boundary) ∨ plan.old = some plan.boundary) := by
  subst reads
  by_cases candidate : s ∈ plan.candidates
  · obtain ⟨files, found⟩ := there s candidate
    have fading : Reads.Fading (.directory files) fun k => (roots k).snapshots s := by
      refine ⟨fun k => ?_, fun k j order absent => passing.gone k j s order absent⟩
      rw [← found]
      exact passing.fading k s candidate
    rw [Reads.run_zoom, Reads.eval_zoom, found]
    rcases (fades_chainStep scope s visited).lost fading i with same | ⟨lost, k, before, absent⟩
    · exact Or.inl same
    · refine Or.inr ⟨lost, ?_⟩
      rcases passing.first k s candidate absent with bounded | same
      · exact Or.inl ⟨k, Nat.le_of_lt before, bounded⟩
      · exact Or.inr same
  · exact Or.inl (passing.spared_run candidate _ i)

/-- The pointer and the head it names are spared by the pass, so every state on the way gives the same answer. -/
theorem Passing.predecessor_run (passing : Passing lib root plan roots) {head : String}
    (pointer : eval root (predecessor lib) = .ok (some head)) (spared : head ∉ plan.candidates) (i : Nat) :
    (run roots i (predecessor lib)).1 = .ok (some head) := by
  have quiet : eval root (regular lib Root.current 128) = regularOf lib 128 root.current root.current := by
    rw [← Reads.run_still (regular lib Root.current 128) (i := 0) (fun _ _ => rfl : ∀ j, 0 ≤ j → (fun _ => root) j = root)]
    exact run_regular Root.current 128 0
  have first : (run roots i (regular lib Root.current 128)).1 = eval root (regular lib Root.current 128) := by
    rw [run_regular, quiet, passing.pointer, passing.pointer]
  unfold predecessor at pointer ⊢
  rw [Reads.eval_bind_ok (Reads.eval_attempt _)] at pointer
  rw [Reads.run_bind_ok (run_attempt_ok first)]
  cases read : eval root (regular lib Root.current 128) with
  | error e =>
    rw [read] at pointer
    cases e with
    | io missing => cases missing <;> cases pointer
    | _ => cases pointer
  | ok bytes =>
    rw [read] at pointer
    simp only [predecessorRead] at pointer ⊢
    cases text : lib.utf8 bytes with
    | none =>
      rw [text] at pointer
      cases pointer
    | some snapshot =>
      rw [text] at pointer
      obtain ⟨p, committed, named⟩ := Reads.eval_bind_eq_ok pointer
      cases named
      have same := (passing.spared_run spared (Master.committed lib head) (run roots i (regular lib Root.current 128)).2).trans
        committed
      rw [Reads.run_bind_ok (Prod.ext same rfl)]
      rfl

end SiriusProxy.Master
