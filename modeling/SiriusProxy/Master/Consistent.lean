import SiriusProxy.Master.Crossing

namespace SiriusProxy.Master
open Reads (eval run)

variable {B α ω : Type} {lib : Serde B} {root : Root B} {plan : Plan} {roots : Nat → Root B}
  {visitor : Visitor B α ω} {inv : ω → List String → Prop} {head : String}

section
variable {keep : Nat} {found : Window} {scope : Scope} {state : ω} {rest : Option String → Option String → Reader B α}

/-- From the pointer on: `rest` is a walk over the chain. -/
theorem Passing.walk_run (passing : Passing lib root plan roots) (reading : Reading lib root plan keep head found)
    (lawful : visitor.Lawful plan.boundary inv) (start : inv state [])
    (loops : ∀ boundary, rest boundary (some head) = chainLoop lib visitor scope boundary 10000 [] state (some head))
    (i : Nat) :
    (run roots i (predecessor lib >>= rest (some plan.boundary))).1 =
        eval root (predecessor lib >>= rest (some plan.boundary)) ∧
      ((run roots i (predecessor lib >>= rest plan.old)).1 = eval root (predecessor lib >>= rest plan.old) ∨
        (run roots i (predecessor lib >>= rest plan.old)).1 =
          eval root (predecessor lib >>= rest (some plan.boundary)) ∧ ∃ k, Bounded lib (roots k) plan.boundary) := by
  obtain ⟨-, named, -, -⟩ := window_found reading.window
  rw [← reading.boundary] at named
  have inside : head ∈ found.visited := by
    obtain ⟨_, s, _, -, first, -, -, ⟨-, rfl⟩ | ⟨-, go⟩⟩ := window_step reading.window
    · cases first
      exact List.mem_cons_self
    · cases first
      exact (window_found go).2.2.2 head List.mem_cons_self
  have spared : head ∉ plan.candidates := fun candidate => (reading.there head candidate).1 inside
  have pointer := passing.predecessor_run reading.pointer spared i
  rw [Reads.run_bind_ok (Prod.ext pointer rfl), Reads.run_bind_ok (Prod.ext pointer rfl),
    Reads.eval_bind_ok reading.pointer, Reads.eval_bind_ok reading.pointer, loops, loops]
  exact passing.within named reading.recorded (fun c candidate => (reading.there c candidate).2) lawful reading.window
    reading.boundary reading.behind (fun c candidate => (reading.there c candidate).1) reading.most (by simp) start _

/-- Once the new boundary is recorded, a reader ends as on a disk that still has everything. -/
theorem Passing.later (passing : Passing lib root plan roots) (reading : Reading lib root plan keep head found)
    (lawful : visitor.Lawful plan.boundary inv) (start : inv state [])
    (loops : ∀ boundary, rest boundary (some head) = chainLoop lib visitor scope boundary 10000 [] state (some head))
    {k : Nat} (bounded : Bounded lib (roots k) plan.boundary) :
    eval (roots k) (retentionBoundary lib >>= fun boundary => predecessor lib >>= rest boundary) =
      eval root (predecessor lib >>= rest (some plan.boundary)) := by
  obtain ⟨-, named, -, -⟩ := window_found reading.window
  rw [← reading.boundary] at named
  have still := passing.still k
  have boundary := still.boundary_after named (Nat.le_refl 0) bounded
  have walk := (still.walk_run reading lawful start loops (run (fun _ => roots k) 0 (retentionBoundary lib)).2).1
  rw [← walk, ← Reads.run_bind_ok (f := fun boundary => predecessor lib >>= rest boundary) (Prod.ext boundary rfl)]
  exact (Reads.run_still _ fun _ _ => rfl).symm

/-- A reader that reads the boundary first and then walks ends as before the pass, or as after the new
boundary was recorded. -/
theorem Passing.read_run (passing : Passing lib root plan roots) (reading : Reading lib root plan keep head found)
    (lawful : visitor.Lawful plan.boundary inv) (start : inv state [])
    (loops : ∀ boundary, rest boundary (some head) = chainLoop lib visitor scope boundary 10000 [] state (some head))
    {p : Reader B α} (reads : p = retentionBoundary lib >>= fun boundary => predecessor lib >>= rest boundary)
    {others : Nat → Root B} (other : Passing lib root plan others) (i : Nat) :
    (run roots i p).1 = eval root p ∨
      (∃ k, Bounded lib (roots k) plan.boundary) ∧
        ∀ k, Bounded lib (others k) plan.boundary → (run roots i p).1 = eval (others k) p := by
  subst reads
  obtain ⟨-, named, -, -⟩ := window_found reading.window
  rw [← reading.boundary] at named
  rw [Reads.eval_bind_ok reading.recorded]
  rcases passing.boundary named reading.recorded i with old | ⟨new, reached⟩
  · rw [Reads.run_bind_ok (Prod.ext old rfl)]
    rcases (passing.walk_run reading lawful start loops (run roots i (retentionBoundary lib)).2).2 with
      same | ⟨moved, reached⟩
    · exact Or.inl same
    · exact Or.inr ⟨reached, fun k bounded => moved.trans (other.later reading lawful start loops bounded).symm⟩
  · rw [Reads.run_bind_ok (Prod.ext new rfl)]
    refine Or.inr ⟨reached, fun k bounded => ?_⟩
    rw [other.later reading lawful start loops bounded]
    exact (passing.walk_run reading lawful start loops _).1

end

/-- A page that is read while the pass runs is that of the disk before, or the boundary was on record when
the walk came to it. Then every disk with that boundary gives the same page, however many of the candidates
are gone there. -/
theorem Passing.historyPage_run {keep : Nat} {found : Window} (passing : Passing lib root plan roots)
    (reading : Reading lib root plan keep head found) {others : Nat → Root B} (other : Passing lib root plan others)
    (query : Query) (i : Nat) :
    (run roots i (historyPage lib query)).1 = eval root (historyPage lib query) ∨
      (∃ k, Bounded lib (roots k) plan.boundary) ∧
        ∀ k, Bounded lib (others k) plan.boundary →
          (run roots i (historyPage lib query)).1 = eval (others k) (historyPage lib query) := by
  unfold historyPage
  split
  · exact Or.inl rfl
  · unfold historyPageInner
    by_cases malformed : (query.before.any fun v => !validHistoryCursor v) = true
    · left
      have refused : historyWalk lib query = fun _ => .throw .format := by
        funext boundary
        simp only [historyWalk, malformed, if_true]
      obtain ⟨-, named, -, -⟩ := window_found reading.window
      rw [← reading.boundary] at named
      rw [refused, Reads.eval_bind_ok reading.recorded]
      rcases passing.boundary named reading.recorded i with old | ⟨new, -⟩
      · rw [Reads.run_bind_ok (Prod.ext old rfl)]
        rfl
      · rw [Reads.run_bind_ok (Prod.ext new rfl)]
        rfl
    · have start : Walk.Kept query { cursorFound := query.before.isNone } [] := by
        refine ⟨by simp, fun _ => rfl, fun found c before => ?_⟩
        simp [before] at found
      have loops : ∀ boundary, historyFrom lib query boundary (some head) =
          chainLoop lib (historyVisitor query head) query.scope boundary 10000 []
            { cursorFound := query.before.isNone } (some head) := fun _ => rfl
      refine passing.read_run reading (history_lawful query head plan.boundary) start loops ?_ other i
      congr 1
      funext boundary
      simp only [historyWalk, if_neg malformed]

theorem Passing.manifestByHash_run {keep : Nat} {found : Window} (passing : Passing lib root plan roots)
    (reading : Reading lib root plan keep head found) {others : Nat → Root B} (other : Passing lib root plan others)
    (scope : Scope) (hash : String) (i : Nat) :
    (run roots i (manifestByHash lib scope hash)).1 = eval root (manifestByHash lib scope hash) ∨
      (∃ k, Bounded lib (roots k) plan.boundary) ∧
        ∀ k, Bounded lib (others k) plan.boundary →
          (run roots i (manifestByHash lib scope hash)).1 = eval (others k) (manifestByHash lib scope hash) := by
  unfold manifestByHash
  split
  · exact Or.inl rfl
  · exact passing.read_run reading (byHash_lawful hash plan.boundary) trivial (fun boundary => rfl) rfl other i

/-- Where the lookup in the new window differs from the one in the old, it finds nothing. -/
theorem byHash_within {hash : String} {scope : Scope} {room remaining : Nat} {visited : List String}
    {next : Option String} {found : Window}
    (read : eval root (window lib plan.old remaining visited next) = .ok (some found))
    (boundary : plan.boundary = found.boundary) (enough : remaining ≤ room) :
    eval root (chainLoop lib (byHashVisitor hash) scope (some plan.boundary) room visited () next) =
        eval root (chainLoop lib (byHashVisitor hash) scope plan.old room visited () next) ∨
      eval root (chainLoop lib (byHashVisitor hash) scope (some plan.boundary) room visited () next) =
        .error .notFound := by
  induction remaining generalizing room visited next with
  | zero =>
    obtain ⟨rest, -, -, impossible, -⟩ := window_step read
    omega
  | succ remaining ih =>
    obtain ⟨rest, s, record, count, rfl, unseen, listed, turn⟩ := window_step read
    obtain rfl : rest = remaining := by omega
    obtain ⟨room, rfl⟩ : ∃ n, room = n + 1 := ⟨room - 1, by omega⟩
    rw [eval_chainLoop unseen, eval_chainLoop unseen]
    rcases chainStep_member scope listed with ⟨e, failed⟩ | ⟨document, done⟩
    · rw [failed]
      exact Or.inl rfl
    · rw [done]
      cases parsed : lib.published document.bytes with
      | none =>
        left
        simp only [chainRead, parsed]
      | some value =>
        by_cases hit : value.contentSha256 = hash
        · left
          simp only [chainRead, parsed, byHashVisitor, if_pos hit]
        · simp only [chainRead, parsed, byHashVisitor, if_neg hit]
          rcases turn with ⟨-, stop⟩ | ⟨passes, go⟩
          · have here : s = plan.boundary := by rw [boundary, stop]
            subst here
            simp only [onward, if_true]
            rw [chainLoop_none]
            exact Or.inr rfl
          · have differs : some plan.boundary ≠ some s := boundary ▸ window_passes go
            simp only [onward, if_neg differs, if_neg passes]
            exact ih go (by omega)

/-- With the boundary on record a lookup by hash either finds what it found before or ends there. -/
theorem Passing.lookup {keep : Nat} {found : Window} (passing : Passing lib root plan roots)
    (reading : Reading lib root plan keep head found) (scope : Scope) (hash : String) {k : Nat}
    (bounded : Bounded lib (roots k) plan.boundary) :
    eval (roots k) (manifestByHash lib scope hash) = eval root (manifestByHash lib scope hash) ∨
      eval (roots k) (manifestByHash lib scope hash) = .error .notFound := by
  unfold manifestByHash
  split
  · exact Or.inl rfl
  · have after := Passing.later passing reading (byHash_lawful hash plan.boundary) trivial
      (show ∀ boundary, chainLoop lib (byHashVisitor hash) scope boundary 10000 [] () (some head) = _ from fun _ => rfl)
      bounded
    unfold byHashWalk
    rw [after, Reads.eval_bind_ok reading.recorded, Reads.eval_bind_ok reading.pointer, Reads.eval_bind_ok reading.pointer]
    exact byHash_within reading.window reading.boundary reading.most

/-- The steps of a pass after its plan. -/
def Label.prunes : Label lib → Prop
  | .bound => True
  | .remove => True
  | .stop => True
  | _ => False

/-- One pass, step by step, with any stop. -/
structure Pass (keep budget : Nat) (worlds : Nat → World lib) : Prop where
  begins : step (worlds 0) (.prune keep budget) = some (worlds 1)
  goes : ∀ n, worlds (n + 2) = worlds (n + 1) ∨
    ∃ label : Label lib, label.prunes ∧ step (worlds (n + 1)) label = some (worlds (n + 2))

structure Underway (root : Root B) (plan : Plan) (w : World lib) : Prop where
  pointer : w.root.current = root.current
  spared : ∀ s, s ∉ plan.candidates → w.root.snapshots s = root.snapshots s
  fading : ∀ s ∈ plan.candidates, w.root.snapshots s = root.snapshots s ∨ w.root.snapshots s = none
  retention : w.root.retention = root.retention ∨ Bounded lib w.root plan.boundary
  first : ∀ s ∈ plan.candidates, w.root.snapshots s = none → Bounded lib w.root plan.boundary ∨ plan.old = some plan.boundary
  phase : w.phase = .idle ∨
    (∃ keep removals, w.phase = .planned keep plan removals ∧ ∀ s ∈ removals, s ∈ plan.candidates) ∨
    ∃ keep old removals, w.phase = .removing keep old removals ∧ (∀ s ∈ removals, s ∈ plan.candidates) ∧
      (Bounded lib w.root plan.boundary ∨ plan.old = some plan.boundary)

variable {w x : World lib}

/-- The step that records the boundary touches no snapshot. -/
theorem Underway.bound (under : Underway root plan w) (taken : step w .bound = some x) :
    Underway root plan x ∧ Bounded lib x.root plan.boundary ∧ x.root.snapshots = w.root.snapshots := by
  simp only [step] at taken
  split at taken
  · rename_i keep written removals phase
    cases taken
    rcases under.phase with idle | ⟨keep', removals', planned, inside⟩ | ⟨_, _, _, removing, -⟩
    · cases phase.symm.trans idle
    · cases phase.symm.trans planned
      exact ⟨⟨under.pointer, under.spared, under.fading, Or.inr rfl, fun _ _ _ => Or.inl rfl,
        Or.inr (Or.inr ⟨keep, plan.old, removals, rfl, inside, Or.inl rfl⟩)⟩, rfl, rfl⟩
    · cases phase.symm.trans removing
  · cases taken

/-- The removal of a candidate leaves the boundary, and brings no snapshot back. -/
theorem Underway.remove (under : Underway root plan w) (taken : step w .remove = some x) :
    Underway root plan x ∧ x.root.retention = w.root.retention ∧
      ∀ s, w.root.snapshots s = none → x.root.snapshots s = none := by
  simp only [step] at taken
  split at taken
  · rename_i keep old snapshot removals phase
    cases taken
    rcases under.phase with idle | ⟨_, _, planned, -⟩ | ⟨keep', old', removals', removing, inside, recorded⟩
    · cases phase.symm.trans idle
    · cases phase.symm.trans planned
    · cases phase.symm.trans removing
      have candidate := inside snapshot List.mem_cons_self
      have others : ∀ s, s ≠ snapshot → (w.root.without snapshot).snapshots s = w.root.snapshots s :=
        fun s differs => Root.without_other differs
      refine ⟨⟨under.pointer, fun s spared => ?_, fun s listed => ?_, under.retention, fun _ _ _ => recorded,
        Or.inr (Or.inr ⟨keep, old, removals, rfl, fun s member => inside s (List.mem_cons_of_mem _ member), recorded⟩)⟩,
        rfl, fun s gone => ?_⟩
      · have differs : s ≠ snapshot := fun same => spared (same ▸ candidate)
        exact (others s differs).trans (under.spared s spared)
      · by_cases same : s = snapshot
        · subst same
          exact Or.inr (Function.update_self ..)
        · have kept : (w.root.without snapshot).snapshots s = w.root.snapshots s := others s same
          change (w.root.without snapshot).snapshots s = _ ∨ (w.root.without snapshot).snapshots s = _
          rw [kept]
          exact under.fading s listed
      · by_cases same : s = snapshot
        · subst same
          exact Function.update_self ..
        · exact (others s same).trans gone
  · cases taken

/-- What any step of the pass keeps, by its phases. -/
theorem Underway.step {label : Label lib} (under : Underway root plan w) (prunes : label.prunes)
    (taken : Master.step w label = some x) :
    Underway root plan x ∧ (∀ s, w.root.snapshots s = none → x.root.snapshots s = none) ∧
      (Bounded lib w.root plan.boundary → Bounded lib x.root plan.boundary) := by
  cases label with
  | bound =>
    obtain ⟨after, bounded, same⟩ := under.bound taken
    exact ⟨after, fun s gone => by rw [same]; exact gone, fun _ => bounded⟩
  | remove =>
    obtain ⟨after, same, gone⟩ := under.remove taken
    refine ⟨after, gone, fun bounded => ?_⟩
    unfold Bounded
    rw [same]
    exact bounded
  | stop =>
    cases taken
    exact ⟨{ under with phase := Or.inl rfl }, fun _ gone => gone, fun bounded => bounded⟩
  | _ => exact prunes.elim

/-- Before a pass takes its first step it has changed nothing. -/
theorem Underway.start (idle : w.phase = .idle)
    (there : ∀ c ∈ plan.candidates, ∃ files, w.root.snapshots c = some (.directory files)) : Underway w.root plan w where
  pointer := rfl
  spared _ _ := rfl
  fading _ _ := Or.inl rfl
  retention := Or.inl rfl
  first s candidate gone := by
    obtain ⟨files, found⟩ := there s candidate
    cases found.symm.trans gone
  phase := Or.inl idle

/-- Planning only reads, so the pass is under way with the plan that was read. -/
theorem Underway.prune {keep : Nat} (under : Underway w.root plan w) (budget : Nat)
    (planned : eval w.root (prunePlan lib keep) = .ok (some plan)) : Underway w.root plan (w.prune keep budget) := by
  have inside : ∀ s ∈ plan.candidates.reverse.take budget, s ∈ plan.candidates :=
    fun s member => List.mem_reverse.mp (List.mem_of_mem_take member)
  simp only [World.prune, planned]
  split
  · rename_i same
    exact { under with phase := Or.inr (Or.inr ⟨keep, plan.old, _, rfl, inside, Or.inr same⟩) }
  · exact { under with phase := Or.inr (Or.inl ⟨keep, _, rfl, inside⟩) }

variable {keep budget : Nat} {worlds : Nat → World lib}

/-- A pass begins at rest, with its plan. -/
theorem Pass.idle (pass : Pass keep budget worlds) :
    (worlds 0).phase = .idle ∧ worlds 1 = (worlds 0).prune keep budget := by
  have begins := pass.begins
  simp only [Master.step] at begins
  split at begins
  · rename_i idle
    exact ⟨idle, (Option.some.inj begins).symm⟩
  · cases begins

/-- A pass without a plan changes nothing. -/
theorem Pass.unplanned (pass : Pass keep budget worlds)
    (none : ∀ plan, eval (worlds 0).root (prunePlan lib keep) ≠ .ok (some plan)) (n : Nat) :
    (worlds n).root = (worlds 0).root := by
  obtain ⟨idle, first⟩ := pass.idle
  have same : worlds 1 = worlds 0 := by
    rw [first]
    unfold World.prune
    split
    · rfl
    · rfl
    · rename_i plan planned
      exact absurd planned (none plan)
  have all : ∀ n, (worlds (n + 1)).root = (worlds 0).root ∧ (worlds (n + 1)).phase = .idle := by
    intro n
    induction n with
    | zero => rw [same]; exact ⟨rfl, idle⟩
    | succ n ih =>
      rcases pass.goes n with still | ⟨label, prunes, taken⟩
      · rw [still]
        exact ih
      · cases label with
        | stop =>
          rw [← Option.some.inj taken]
          exact ⟨ih.1, rfl⟩
        | bound | remove =>
          simp only [Master.step, ih.2] at taken
          cases taken
        | _ => exact prunes.elim
  cases n with
  | zero => rfl
  | succ n => exact (all n).1

/-- What a reader's looks find while the pass goes on. -/
def seen (worlds : Nat → World lib) (progress : Nat → Nat) (i : Nat) : Root B := (worlds (progress i)).root

/-- By induction on the steps, every world of the pass is one of the plan under way. -/
theorem Pass.underway (pass : Pass keep budget worlds)
    (planned : eval (worlds 0).root (prunePlan lib keep) = .ok (some plan)) (n : Nat) :
    Underway (worlds 0).root plan (worlds n) := by
  obtain ⟨idle, first⟩ := pass.idle
  obtain ⟨head, found, reading⟩ := reading_of_plan planned
  have start : Underway (worlds 0).root plan (worlds 0) := .start idle fun c candidate => (reading.there c candidate).2
  have under : ∀ n, Underway (worlds 0).root plan (worlds (n + 1)) := by
    intro n
    induction n with
    | zero =>
      rw [first]
      exact start.prune budget planned
    | succ n ih =>
      rcases pass.goes n with still | ⟨label, prunes, taken⟩
      · rw [still]
        exact ih
      · exact (ih.step prunes taken).1
  cases n with
  | zero => exact start
  | succ n => exact under n

/-- What is gone stays away, and the boundary stays on record. -/
theorem Pass.grows (pass : Pass keep budget worlds)
    (planned : eval (worlds 0).root (prunePlan lib keep) = .ok (some plan)) {m n : Nat} (order : m ≤ n) :
    (∀ s, (worlds m).root.snapshots s = none → (worlds n).root.snapshots s = none) ∧
      (Bounded lib (worlds m).root plan.boundary → Bounded lib (worlds n).root plan.boundary) := by
  induction n, order using Nat.le_induction with
  | base => exact ⟨fun _ gone => gone, fun bounded => bounded⟩
  | succ n _ ih =>
    have next : (∀ s, (worlds n).root.snapshots s = none → (worlds (n + 1)).root.snapshots s = none) ∧
        (Bounded lib (worlds n).root plan.boundary → Bounded lib (worlds (n + 1)).root plan.boundary) := by
      cases n with
      | zero =>
        rw [pass.idle.2, (World.prune_kept _ _ _).1]
        exact ⟨fun _ gone => gone, fun bounded => bounded⟩
      | succ n =>
        rcases pass.goes n with still | ⟨label, prunes, taken⟩
        · rw [still]
          exact ⟨fun _ gone => gone, fun bounded => bounded⟩
        · exact ((pass.underway planned (n + 1)).step prunes taken).2
    exact ⟨fun s gone => next.1 s (ih.1 s gone), fun bounded => next.2 (ih.2 bounded)⟩

/-- What readers see of a pass with a plan. -/
theorem Pass.passing (pass : Pass keep budget worlds) (planned : eval (worlds 0).root (prunePlan lib keep) = .ok (some plan))
    {progress : Nat → Nat} (mono : Monotone progress) : Passing lib (worlds 0).root plan (seen worlds progress) where
  pointer i := (pass.underway planned (progress i)).pointer
  spared i := (pass.underway planned (progress i)).spared
  fading i := (pass.underway planned (progress i)).fading
  gone _ _ s order gone := (pass.grows planned (mono order)).1 s gone
  retention i := (pass.underway planned (progress i)).retention
  stays _ _ order bounded := (pass.grows planned (mono order)).2 bounded
  first i := (pass.underway planned (progress i)).first

/-- The documents from `CURRENT` down to the recorded boundary, newest first. -/
def collector : Visitor B (List (Document B × PublishedManifest)) (List (Document B × PublishedManifest)) where
  visit _ documents _ document value _ := .go (documents ++ [(document, value)])
  cross _ _ := .error .notFound
  finish := .ok

def windowDocuments (lib : Serde B) (scope : Scope) : Reader B (List (Document B × PublishedManifest)) :=
  retentionBoundary lib >>= fun boundary => predecessor lib >>= chainLoop lib collector scope boundary 10000 [] []

def newest (hash : String) (documents : List (Document B × PublishedManifest)) : Option (Document B) :=
  (documents.find? fun d => d.2.contentSha256 = hash).map Prod.fst

def Found (result : Except MasterError (Document B)) (found : Option (Document B)) : Prop :=
  result = found.elim (.error .notFound) .ok

/-- The lookup loop returns the first match of the documents it would collect. -/
theorem byHash_newest {scope : Scope} (hash : String) {boundary : Option String} {room : Nat} {visited : List String}
    {before documents : List (Document B × PublishedManifest)} {next : Option String}
    (all : eval root (chainLoop lib collector scope boundary room visited before next) = .ok documents) :
    ∃ more, documents = before ++ more ∧
      Found (eval root (chainLoop lib (byHashVisitor hash) scope boundary room visited () next)) (newest hash more) := by
  induction room generalizing visited before next with
  | zero =>
    cases next with
    | none =>
      cases all
      exact ⟨[], by simp, rfl⟩
    | some s => cases all
  | succ room ih =>
    cases next with
    | none =>
      cases all
      exact ⟨[], by simp, rfl⟩
    | some s =>
      by_cases unseen : s ∉ visited
      · rw [eval_chainLoop unseen] at all ⊢
        generalize eval root ((chainStep lib scope s (s :: visited)).zoom fun root => root.snapshots s) = read at all ⊢
        cases read with
        | error e =>
          simp only [chainRead] at all
          obtain ⟨crossed, -, impossible⟩ := Reads.eval_bind_eq_ok all
          cases impossible
        | ok pair =>
          obtain ⟨document, record⟩ := pair
          simp only [chainRead] at all ⊢
          cases parsed : lib.published document.bytes with
          | none =>
            rw [parsed] at all
            cases all
          | some value =>
            rw [parsed] at all
            obtain ⟨more, rfl, found⟩ := ih all
            refine ⟨(document, value) :: more, by simp, ?_⟩
            by_cases hit : value.contentSha256 = hash
            · simp [byHashVisitor, hit, Found, newest]
            · simp only [byHashVisitor, if_neg hit]
              have skipped : newest hash ((document, value) :: more) = newest hash more := by
                simp [newest, hit]
              rw [skipped]
              exact found
      · have again : visited.contains s = true := by simpa using unseen
        simp only [chainLoop, again, if_true] at all
        cases all

/-- A lookup on a quiet disk finds the newest match in the window. -/
theorem manifestByHash_newest {scope : Scope} {hash : String} {documents : List (Document B × PublishedManifest)}
    (valid : hashValid hash = true) (all : eval root (windowDocuments lib scope) = .ok documents) :
    Found (eval root (manifestByHash lib scope hash)) (newest hash documents) := by
  unfold windowDocuments at all
  obtain ⟨boundary, recorded, all⟩ := Reads.eval_bind_eq_ok all
  obtain ⟨head, pointer, all⟩ := Reads.eval_bind_eq_ok all
  obtain ⟨more, rfl, found⟩ := byHash_newest hash all
  unfold manifestByHash
  rw [valid, if_neg (by simp), Reads.eval_bind_ok recorded, byHashWalk, Reads.eval_bind_ok pointer]
  exact found

/-- A reader that looks at ever later worlds of a pass sees the page of its start, or the one that every world
gives from some step on. -/
theorem Pass.historyPage_run (pass : Pass keep budget worlds) {progress : Nat → Nat} (mono : Monotone progress)
    (query : Query) :
    (run (seen worlds progress) 0 (historyPage lib query)).1 = eval (worlds 0).root (historyPage lib query) ∨
      ∃ n, ∀ m, n ≤ m →
        (run (seen worlds progress) 0 (historyPage lib query)).1 = eval (worlds m).root (historyPage lib query) := by
  by_cases planned : ∃ plan, eval (worlds 0).root (prunePlan lib keep) = .ok (some plan)
  · obtain ⟨plan, planned⟩ := planned
    obtain ⟨head, found, reading⟩ := reading_of_plan planned
    have every := pass.passing planned monotone_id
    rcases (pass.passing planned mono).historyPage_run reading every query 0 with same | ⟨⟨k, bounded⟩, after⟩
    · exact Or.inl same
    · exact Or.inr ⟨progress k, fun m later => after m (every.stays (progress k) m later bounded)⟩
  · left
    exact Reads.run_still _ fun k _ => pass.unplanned (fun plan known => planned ⟨plan, known⟩) (progress k)

/-- A lookup during the pass finds what it found at the start or nothing, and it finds what all later worlds
agree on. -/
theorem Pass.manifestByHash_run (pass : Pass keep budget worlds) {progress : Nat → Nat} (mono : Monotone progress)
    (scope : Scope) (hash : String) :
    ((run (seen worlds progress) 0 (manifestByHash lib scope hash)).1 =
        eval (worlds 0).root (manifestByHash lib scope hash) ∨
      (run (seen worlds progress) 0 (manifestByHash lib scope hash)).1 = .error .notFound) ∧
    ∀ n document, (∀ m, n ≤ m → eval (worlds m).root (manifestByHash lib scope hash) = .ok document) →
      (run (seen worlds progress) 0 (manifestByHash lib scope hash)).1 = .ok document := by
  by_cases planned : ∃ plan, eval (worlds 0).root (prunePlan lib keep) = .ok (some plan)
  · obtain ⟨plan, planned⟩ := planned
    obtain ⟨head, found, reading⟩ := reading_of_plan planned
    have every := pass.passing planned monotone_id
    rcases (pass.passing planned mono).manifestByHash_run reading every scope hash 0 with same | ⟨⟨k, bounded⟩, after⟩
    · refine ⟨Or.inl same, fun n document later => ?_⟩
      by_cases reached : ∃ m, n ≤ m ∧ Bounded lib (worlds m).root plan.boundary
      · obtain ⟨m, order, bounded⟩ := reached
        rcases every.lookup reading scope hash bounded with equal | none
        · exact same.trans (equal.symm.trans (later m order))
        · cases none.symm.trans (later m order)
      · -- Where the new boundary is never recorded, a lookup is the same at any time.
        have quiet := (every.still n).manifestByHash_run reading every scope hash 0
        rw [Reads.run_still _ fun _ _ => rfl] at quiet
        rcases quiet with equal | ⟨⟨_, bounded⟩, -⟩
        · exact same.trans (equal.symm.trans (later n (Nat.le_refl n)))
        · exact absurd ⟨n, Nat.le_refl n, bounded⟩ reached
    · refine ⟨?_, fun n document later => ?_⟩
      · rw [after (progress k) bounded]
        exact every.lookup reading scope hash bounded
      · have recorded := every.stays (progress k) (max n (progress k)) (Nat.le_max_right ..) bounded
        exact (after _ recorded).trans (later _ (Nat.le_max_left ..))
  · have same : (run (seen worlds progress) 0 (manifestByHash lib scope hash)).1 =
        eval (worlds 0).root (manifestByHash lib scope hash) :=
      Reads.run_still _ fun k _ => pass.unplanned (fun plan known => planned ⟨plan, known⟩) (progress k)
    refine ⟨Or.inl same, fun n document later => ?_⟩
    rw [same, ← pass.unplanned (fun plan known => planned ⟨plan, known⟩) n]
    exact later n (Nat.le_refl n)

/-- A page read while a pass goes on, with any looks between any steps, is the one of before the pass
or the one of after it, errors included. A lookup by hash finds the newest match whenever it is in the
window after the pass, and else the newest match of the window before it, or nothing. -/
theorem reads_consistent (pass : Pass keep budget worlds) {progress : Nat → Nat} (mono : Monotone progress)
    (query : Query) (scope : Scope) (hash : String) :
    ((run (seen worlds progress) 0 (historyPage lib query)).1 = eval (worlds 0).root (historyPage lib query) ∨
      ∃ n, ∀ m, n ≤ m →
        (run (seen worlds progress) 0 (historyPage lib query)).1 = eval (worlds m).root (historyPage lib query)) ∧
    ((run (seen worlds progress) 0 (manifestByHash lib scope hash)).1 =
        eval (worlds 0).root (manifestByHash lib scope hash) ∨
      (run (seen worlds progress) 0 (manifestByHash lib scope hash)).1 = .error .notFound) ∧
    (hashValid hash = true → ∀ documents, eval (worlds 0).root (windowDocuments lib scope) = .ok documents →
      Found (run (seen worlds progress) 0 (manifestByHash lib scope hash)).1 (newest hash documents) ∨
        (run (seen worlds progress) 0 (manifestByHash lib scope hash)).1 = .error .notFound) ∧
    (hashValid hash = true → ∀ n documents,
      (∀ m, n ≤ m → eval (worlds m).root (windowDocuments lib scope) = .ok documents) →
      ∀ document, newest hash documents = some document →
        (run (seen worlds progress) 0 (manifestByHash lib scope hash)).1 = .ok document) := by
  have page := pass.historyPage_run mono query
  have lookup := pass.manifestByHash_run mono scope hash
  refine ⟨page, ?_, fun valid documents all => ?_, fun valid n documents all document first => ?_⟩
  · exact lookup.1
  · rcases lookup.1 with same | none
    · rw [same]
      exact Or.inl (manifestByHash_newest valid all)
    · exact Or.inr none
  · refine lookup.2 n document fun m later => ?_
    have found := manifestByHash_newest valid (all m later)
    rw [first] at found
    exact found

/-- The worlds along a list of steps; a step that is not enabled is left out. -/
def trace (w : World lib) : List (Label lib) → Nat → World lib
  | [], _ => w
  | _ :: _, 0 => w
  | label :: rest, n + 1 => trace ((step w label).getD w) rest n

theorem trace_zero (labels : List (Label lib)) : trace w labels 0 = w := by
  cases labels <;> rfl

/-- A step of a trace is a step of the pass, or the trace has ended and stands still. -/
theorem trace_step (labels : List (Label lib)) (n : Nat) (prunes : ∀ label ∈ labels, label.prunes) :
    trace w labels (n + 1) = trace w labels n ∨
      ∃ label : Label lib, label.prunes ∧ step (trace w labels n) label = some (trace w labels (n + 1)) := by
  induction labels generalizing w n with
  | nil => exact Or.inl rfl
  | cons label rest ih =>
    cases n with
    | succ n => exact ih n fun label member => prunes label (List.mem_cons_of_mem _ member)
    | zero =>
      have next : trace w (label :: rest) 1 = (step w label).getD w := by
        change trace ((step w label).getD w) rest 0 = _
        exact trace_zero rest
      rw [next]
      cases taken : step w label with
      | none => exact Or.inl rfl
      | some x => exact Or.inr ⟨label, prunes label List.mem_cons_self, taken⟩

/-- The trace of any steps of a pass that begins at rest is such a pass. -/
theorem trace_pass (idle : w.phase = .idle) {labels : List (Label lib)} (prunes : ∀ label ∈ labels, label.prunes) :
    Pass keep budget (trace w (.prune keep budget :: labels)) := by
  have begins : step w (.prune keep budget) = some (w.prune keep budget) := by
    simp only [step, idle]
  have after : ∀ n, trace w (.prune keep budget :: labels) (n + 1) = trace (w.prune keep budget) labels n := by
    intro n
    simp only [trace, begins, Option.getD_some]
  refine ⟨?_, fun n => ?_⟩
  · rw [after, trace_zero, trace_zero]
    exact begins
  · rw [after, after]
    exact trace_step labels n prunes

/-- Three publications. -/
def threePublished : World sampleSerde :=
  (Run.exec step ({ root := {} } : World sampleSerde)
    (publishSample "master-a" sample_named 1 ++ publishSample "master-b" master_b_name 2 ++
      publishSample "master-c" master_c_name 3)).getD { root := {} }

def Phase.isIdle : Phase lib → Bool
  | .idle => true
  | _ => false

theorem Phase.isIdle_eq {phase : Phase lib} (idle : phase.isIdle = true) : phase = .idle := by
  cases phase with
  | idle => rfl
  | _ => cases idle

/-- A pass that keeps two of them. -/
def keepTwo : Nat → World sampleSerde := trace threePublished [.prune 2 64, .bound, .remove]

theorem keepTwo_pass : Pass 2 64 keepTwo := by
  refine trace_pass ?_ ?_
  · have idle : threePublished.phase.isIdle = true := by decide +kernel
    exact Phase.isIdle_eq idle
  · intro label member
    simp only [List.mem_cons, List.not_mem_nil, or_false] at member
    rcases member with rfl | rfl <;> trivial

/-- The whole pass takes place before look `n`. -/
def before (n i : Nat) : Nat := if i < n then 0 else 3

theorem before_mono (n : Nat) : Monotone (before n) := by
  intro i j order
  unfold before
  split
  · omega
  · split <;> omega

theorem reads_consistent_midway : Pass 2 64 keepTwo ∧ Monotone (before 35) ∧
    ((run (seen keepTwo (before 35)) 0 (historyPage sampleSerde ⟨sampleScope, 10, none⟩)).1 =
        eval (keepTwo 0).root (historyPage sampleSerde ⟨sampleScope, 10, none⟩) ∨
      ∃ n, ∀ m, n ≤ m → (run (seen keepTwo (before 35)) 0 (historyPage sampleSerde ⟨sampleScope, 10, none⟩)).1 =
        eval (keepTwo m).root (historyPage sampleSerde ⟨sampleScope, 10, none⟩)) :=
  ⟨keepTwo_pass, before_mono 35, (reads_consistent keepTwo_pass (before_mono 35) ⟨sampleScope, 10, none⟩ sampleScope "").1⟩

/-- A malformed cursor is refused as such, not as missing. -/
theorem reads_malformed : Pass 2 64 keepTwo ∧ Monotone (before 35) ∧
    (run (seen keepTwo (before 35)) 0 (historyPage sampleSerde ⟨sampleScope, 10, some "x"⟩)).1 = .error .format := by
  refine ⟨keepTwo_pass, before_mono 35, ?_⟩
  decide +kernel

end SiriusProxy.Master
