import SiriusProxy.Master.Interleaved

namespace SiriusProxy.Master
open Reads (eval run)

variable {B α ω : Type} {lib : Serde B} {root : Root B} {plan : Plan} {roots : Nat → Root B}

/-- The result where no snapshot follows. -/
def Visitor.settle (visitor : Visitor B α ω) : Turn α ω → Except MasterError α
  | .stop r => r
  | .go state => visitor.finish state

/-- What makes the recovery at the boundary `b` right: a walk that has passed `b` and recovers there
ends as one that was told to stop at `b`, however much further it has read. -/
structure Visitor.Lawful (visitor : Visitor B α ω) (b : String) (inv : ω → List String → Prop) : Prop where
  same : ∀ {boundary other state s document value record}, boundary ≠ some s → other ≠ some s →
    visitor.visit boundary state s document value record = visitor.visit other state s document value record
  keep : ∀ {boundary state visited s document value record after}, inv state visited → s ∉ visited →
    boundary ≠ some s → visitor.visit boundary state s document value (some record) = .go after → inv after (s :: visited)
  turn : ∀ {boundary state visited document value record after}, inv state visited → b ∉ visited →
    boundary ≠ some b → record.previousSnapshot.isSome →
    visitor.visit boundary state b document value (some record) = .go after →
    visitor.settle (visitor.visit (some b) state b document value (some record)) = visitor.cross after b
  frame : ∀ {boundary state visited s document value record after}, inv state visited → s ≠ b → boundary ≠ some s →
    visitor.visit boundary state s document value (some record) = .go after →
    visitor.cross after b = visitor.cross state b

variable {visitor : Visitor B α ω} {inv : ω → List String → Prop}

/-- A missing snapshot is explained by the new boundary exactly if the walk has crossed it. -/
theorem Passing.crossed_run (passing : Passing lib root plan roots) (named : isSnapshotName plan.boundary = true)
    (recorded : eval root (retentionBoundary lib) = .ok plan.old) {e : MasterError} {s : String} {visited : List String}
    (crossed : plan.boundary ≠ s ∧ plan.boundary ∈ visited) (i : Nat) :
    (run roots i (crossedBoundary lib e s visited)).1 = eval root (crossedBoundary lib e s visited) ∨
      (run roots i (crossedBoundary lib e s visited)).1 = .ok plan.boundary ∧
        ∃ k, Bounded lib (roots k) plan.boundary := by
  unfold crossedBoundary
  split
  · exact Or.inl rfl
  · rw [Reads.eval_bind_ok (Reads.eval_attempt _), recorded]
    rcases passing.boundary named recorded i with old | ⟨new, bounded⟩
    · left
      rw [Reads.run_bind_ok (run_attempt_ok old)]
      unfold crossedRead
      split
      · split <;> rfl
      · rfl
    · right
      rw [Reads.run_bind_ok (run_attempt_ok new)]
      simp only [crossedRead, if_pos crossed]
      exact ⟨rfl, bounded⟩

theorem Passing.crossed_lost (passing : Passing lib root plan roots) (named : isSnapshotName plan.boundary = true)
    {e : MasterError} {s : String} {visited : List String} (lost : Lost e)
    (crossed : plan.boundary ≠ s ∧ plan.boundary ∈ visited) {k i : Nat} (order : k ≤ i)
    (bounded : Bounded lib (roots k) plan.boundary) :
    (run roots i (crossedBoundary lib e s visited)).1 = .ok plan.boundary := by
  have missing : e.missing = true := lost
  unfold crossedBoundary
  rw [missing, if_neg (by simp), Reads.run_bind_ok (run_attempt_ok (passing.boundary_after named order bounded))]
  simp only [crossedRead, if_pos crossed]
  rfl

/-- Before the boundary nothing is explained by it. -/
theorem Passing.crossed_early (passing : Passing lib root plan roots) (named : isSnapshotName plan.boundary = true)
    (recorded : eval root (retentionBoundary lib) = .ok plan.old) {e : MasterError} {s : String} {visited : List String}
    (early : plan.boundary ∉ visited) (older : ∀ o ∈ visited, plan.old ≠ some o) (i : Nat) :
    (run roots i (crossedBoundary lib e s (s :: visited))).1 = .error e := by
  have refused : ∀ {b : String} {j : Nat}, b ∉ visited →
      (run roots j (crossedRead (B := B) e s (s :: visited) (.ok (some b)))).1 = .error e := by
    intro b j unseen
    simp only [crossedRead]
    rw [if_neg]
    · rfl
    · intro ⟨differs, member⟩
      rcases List.mem_cons.mp member with same | seen
      · exact differs same
      · exact unseen seen
  unfold crossedBoundary
  split
  · rfl
  · rcases passing.boundary named recorded i with old | ⟨new, -⟩
    · rw [Reads.run_bind_ok (run_attempt_ok old)]
      cases was : plan.old with
      | none => rfl
      | some o => exact refused fun seen => older o seen was
    · rw [Reads.run_bind_ok (run_attempt_ok new)]
      exact refused early

theorem chainLoop_none (visitor : Visitor B α ω) (scope : Scope) (boundary : Option String) (room : Nat)
    (visited : List String) (state : ω) :
    chainLoop lib visitor scope boundary room visited state none = .done (visitor.finish state) := by
  cases room <;> rfl

/-- A walk goes on only from a snapshot that is not the boundary, to the predecessor in its record. -/
theorem onward_some {boundary : Option String} {s t : String} {record : Option Publication}
    (onwards : onward boundary s record = some t) : boundary ≠ some s ∧ ∃ r, record = some r := by
  unfold onward at onwards
  split at onwards
  · cases onwards
  · rename_i passes
    obtain ⟨r, same, -⟩ := Option.bind_eq_some_iff.mp onwards
    exact ⟨passes, r, same⟩

/-- Behind the new boundary the walk goes on as before the pass, or it recovers at the boundary. -/
theorem Passing.behind (passing : Passing lib root plan roots) (named : isSnapshotName plan.boundary = true)
    (recorded : eval root (retentionBoundary lib) = .ok plan.old)
    (there : ∀ c ∈ plan.candidates, ∃ files, root.snapshots c = some (.directory files))
    (lawful : visitor.Lawful plan.boundary inv) (moved : plan.old ≠ some plan.boundary) {scope : Scope} {room : Nat}
    {visited : List String} {state : ω} {next : Option String} (crossed : plan.boundary ∈ visited)
    (known : inv state visited) (i : Nat) :
    (run roots i (chainLoop lib visitor scope plan.old room visited state next)).1 =
        eval root (chainLoop lib visitor scope plan.old room visited state next) ∨
      (run roots i (chainLoop lib visitor scope plan.old room visited state next)).1 =
        visitor.cross state plan.boundary ∧ ∃ k, Bounded lib (roots k) plan.boundary := by
  induction room generalizing visited state next i with
  | zero => cases next <;> exact Or.inl rfl
  | succ room ih =>
    cases next with
    | none => exact Or.inl rfl
    | some s =>
      simp only [chainLoop]
      by_cases seen : visited.contains s = true
      · simp only [if_pos seen]
        exact Or.inl rfl
      · simp only [if_neg seen]
        have unseen : s ∉ visited := by simpa using seen
        have differs : plan.boundary ≠ s := fun same => unseen (same ▸ crossed)
        have later : plan.boundary ∈ s :: visited := List.mem_cons_of_mem s crossed
        generalize reads : (chainStep lib scope s (s :: visited)).zoom (fun root : Root B => root.snapshots s) = p
        rcases passing.chainStep_run there scope s (s :: visited) i reads.symm with same | ⟨⟨e, failed, lost⟩, reason⟩
        · rw [Reads.run_bind_ok (run_attempt_ok same), Reads.eval_bind_ok (Reads.eval_attempt p)]
          cases eval root p with
          | error e =>
            simp only [chainRead]
            rcases passing.crossed_run named recorded ⟨differs, later⟩ (run roots i p).2 with quiet | ⟨new, bounded⟩
            · left
              rw [Reads.run_bind_done, Reads.eval_bind, quiet]
              rfl
            · right
              rw [Reads.run_bind_ok (Prod.ext new rfl)]
              exact ⟨rfl, bounded⟩
          | ok pair =>
            obtain ⟨document, record⟩ := pair
            simp only [chainRead]
            split
            · exact Or.inl rfl
            · split
              · exact Or.inl rfl
              · rename_i value _ after turned
                cases onwards : onward plan.old s record with
                | none =>
                  rw [chainLoop_none]
                  exact Or.inl rfl
                | some t =>
                  obtain ⟨passes, r, rfl⟩ := onward_some onwards
                  rw [← lawful.frame known differs.symm passes turned]
                  exact ih later (lawful.keep known unseen passes turned) (run roots i p).2
        · right
          rw [Reads.run_bind_ok (run_attempt_ok failed)]
          simp only [chainRead]
          rcases reason with ⟨k, order, bounded⟩ | same
          · have found := passing.crossed_lost named lost ⟨differs, later⟩ order bounded
            rw [Reads.run_bind_ok (Prod.ext found rfl)]
            exact ⟨rfl, k, bounded⟩
          · exact absurd same moved

/-- The record that the pass read is the one that a walk reads. -/
theorem chainStep_member (scope : Scope) {s : String} {visited : List String} {record : Publication}
    (read : eval root ((member lib s visited).zoom fun root => root.snapshots s) = .ok (some record)) :
    (∃ e, eval root ((chainStep lib scope s visited).zoom fun root => root.snapshots s) = .error e) ∨
      ∃ document, eval root ((chainStep lib scope s visited).zoom fun root => root.snapshots s) =
        .ok (document, some record) := by
  obtain ⟨directory, published⟩ := member_of_eval read
  rw [Reads.eval_zoom] at directory published ⊢
  unfold chainStep
  rw [Reads.eval_bind_ok directory]
  cases made : eval (root.snapshots s) (manifestIn lib s scope) with
  | error e => exact Or.inl ⟨e, Reads.eval_bind_error made⟩
  | ok document =>
    refine Or.inr ⟨document, ?_⟩
    rw [Reads.eval_bind_ok made, Reads.eval_bind_ok published]
    rfl

/-- Before anything is removed. -/
theorem Passing.quiet (there : ∀ c ∈ plan.candidates, ∃ files, root.snapshots c = some (.directory files)) :
    Passing lib root plan fun _ => root where
  pointer _ := rfl
  spared _ _ _ := rfl
  fading _ _ _ := Or.inl rfl
  gone _ _ _ _ gone := gone
  retention _ := Or.inl rfl
  stays _ _ _ bounded := bounded
  first _ s candidate gone := by
    obtain ⟨files, found⟩ := there s candidate
    cases found.symm.trans gone

theorem eval_chainLoop {scope : Scope} {boundary : Option String} {room : Nat} {visited : List String} {state : ω}
    {s : String} (unseen : s ∉ visited) :
    eval root (chainLoop lib visitor scope boundary (room + 1) visited state (some s)) =
      eval root (chainRead lib visitor boundary (chainLoop lib visitor scope boundary room (s :: visited)) state s
        (s :: visited) (eval root ((chainStep lib scope s (s :: visited)).zoom fun root => root.snapshots s))) := by
  have fresh : ¬ visited.contains s = true := by simpa using unseen
  simp only [chainLoop, if_neg fresh]
  rw [Reads.eval_bind_ok (Reads.eval_attempt _)]

theorem Passing.run_chainLoop (passing : Passing lib root plan roots) (visitor : Visitor B α ω) (scope : Scope)
    (room : Nat) (state : ω) {visited : List String} {s : String} (unseen : s ∉ visited)
    (spared : s ∉ plan.candidates) (i : Nat) :
    ∃ j, ∀ boundary, run roots i (chainLoop lib visitor scope boundary (room + 1) visited state (some s)) =
      run roots j (chainRead lib visitor boundary (chainLoop lib visitor scope boundary room (s :: visited)) state s
        (s :: visited) (eval root ((chainStep lib scope s (s :: visited)).zoom fun root => root.snapshots s))) := by
  refine ⟨(run roots i ((chainStep lib scope s (s :: visited)).zoom fun root => root.snapshots s)).2, fun boundary => ?_⟩
  have fresh : ¬ visited.contains s = true := by simpa using unseen
  simp only [chainLoop, if_neg fresh]
  exact Reads.run_bind_ok (run_attempt_ok (passing.spared_run spared _ i))

/-- At the boundary the walk was told, nothing more is read. -/
theorem chainRead_end {scope : Scope} {room : Nat} {visited : List String} {state : ω} {s : String}
    {document : Document B} {record : Option Publication} {value : PublishedManifest}
    (parsed : lib.published document.bytes = some value) :
    chainRead lib visitor (some s) (chainLoop lib visitor scope (some s) room visited) state s visited
        (.ok (document, record)) =
      .done (visitor.settle (visitor.visit (some s) state s document value record)) := by
  simp only [chainRead, parsed]
  cases visitor.visit (some s) state s document value record with
  | stop r => rfl
  | go after =>
    simp only [onward, if_true]
    exact chainLoop_none ..

/-- Told to stop at the new boundary, a walk ends there as on a quiet disk; told the old one, it ends
as before the pass or as if told the new one. -/
theorem Passing.within (passing : Passing lib root plan roots) (named : isSnapshotName plan.boundary = true)
    (recorded : eval root (retentionBoundary lib) = .ok plan.old)
    (there : ∀ c ∈ plan.candidates, ∃ files, root.snapshots c = some (.directory files))
    (lawful : visitor.Lawful plan.boundary inv) {scope : Scope} {room remaining : Nat}
    {visited : List String} {state : ω} {next : Option String} {found : Window}
    (read : eval root (window lib plan.old remaining visited next) = .ok (some found))
    (boundary : plan.boundary = found.boundary) (behind : found.behind.isSome)
    (apart : ∀ c ∈ plan.candidates, c ∉ found.visited) (enough : remaining ≤ room)
    (older : ∀ o ∈ visited, plan.old ≠ some o) (known : inv state visited) (i : Nat) :
    (run roots i (chainLoop lib visitor scope (some plan.boundary) room visited state next)).1 =
        eval root (chainLoop lib visitor scope (some plan.boundary) room visited state next) ∧
      ((run roots i (chainLoop lib visitor scope plan.old room visited state next)).1 =
          eval root (chainLoop lib visitor scope plan.old room visited state next) ∨
        (run roots i (chainLoop lib visitor scope plan.old room visited state next)).1 =
          eval root (chainLoop lib visitor scope (some plan.boundary) room visited state next) ∧
          ∃ k, Bounded lib (roots k) plan.boundary) := by
  induction remaining generalizing room visited state next i with
  | zero =>
    obtain ⟨rest, -, -, impossible, -⟩ := window_step read
    omega
  | succ remaining ih =>
    have early : plan.boundary ∉ visited := by
      rw [boundary]
      exact (window_found read).1
    obtain ⟨rest, s, record, count, rfl, unseen, listed, turn⟩ := window_step read
    obtain rfl : rest = remaining := by omega
    obtain ⟨room, rfl⟩ : ∃ n, room = n + 1 := ⟨room - 1, by omega⟩
    have inside : s ∈ found.visited := by
      rcases turn with ⟨-, rfl⟩ | ⟨-, go⟩
      · exact List.mem_cons_self
      · exact (window_found go).2.2.2 s List.mem_cons_self
    have spared : s ∉ plan.candidates := fun candidate => apart s candidate inside
    obtain ⟨j, ran⟩ := passing.run_chainLoop visitor scope room state unseen spared i
    rw [ran, ran, eval_chainLoop unseen, eval_chainLoop unseen]
    rcases chainStep_member scope listed with ⟨e, failed⟩ | ⟨document, done⟩
    · -- A snapshot of the window that cannot be read is an error in any state of the pass.
      have lost : ∀ k, (run roots k (crossedBoundary lib e s (s :: visited))).1 = .error e :=
        fun k => passing.crossed_early named recorded early older k
      have quiet : eval root (crossedBoundary lib e s (s :: visited)) = .error e := by
        rw [← Reads.run_still _ (i := 0) (fun _ _ => rfl : ∀ j, 0 ≤ j → (fun _ => root) j = root)]
        exact (Passing.quiet there).crossed_early named recorded early older 0
      rw [failed]
      simp only [chainRead]
      rw [Reads.eval_bind_error quiet, Reads.run_bind_error (Prod.ext (lost j) rfl)]
      exact ⟨rfl, Or.inl rfl⟩
    · rw [done]
      cases parsed : lib.published document.bytes with
      | none =>
        simp only [chainRead, parsed]
        exact ⟨rfl, Or.inl rfl⟩
      | some value =>
        rcases turn with ⟨-, stop⟩ | ⟨passes, go⟩
        · have here : s = plan.boundary := by rw [boundary, stop]
          subst here
          rw [chainRead_end parsed]
          refine ⟨rfl, ?_⟩
          by_cases moved : plan.old = some plan.boundary
          · rw [moved, chainRead_end parsed]
            exact Or.inl rfl
          · simp only [chainRead, parsed]
            cases turned : visitor.visit plan.old state plan.boundary document value (some record) with
            | stop r => exact Or.inl rfl
            | go after =>
              have further : record.previousSnapshot.isSome := by
                rw [stop] at behind
                exact behind
              rw [Reads.eval_done, lawful.turn known early moved further turned]
              exact passing.behind named recorded there lawful moved List.mem_cons_self (lawful.keep known early moved turned) j
        · have differs : some plan.boundary ≠ some s := boundary ▸ window_passes go
          have alike : visitor.visit (some plan.boundary) state s document value (some record) =
              visitor.visit plan.old state s document value (some record) :=
            lawful.same differs passes
          simp only [chainRead, parsed, alike]
          cases turned : visitor.visit plan.old state s document value (some record) with
          | stop r => exact ⟨rfl, Or.inl rfl⟩
          | go after =>
            simp only [onward, if_neg differs, if_neg passes]
            refine ih go (by omega) (fun o member => ?_) (lawful.keep known unseen passes turned) j
            rcases List.mem_cons.mp member with rfl | seen
            · exact passes
            · exact older o seen

/-- What the loop of `history_walk` keeps: entries are visited snapshots behind the cursor. -/
structure Walk.Kept (query : Query) (walk : Walk) (visited : List String) : Prop where
  inside : ∀ e ∈ walk.entries, e.snapshot ∈ visited
  empty : walk.cursorFound = false → walk.entries = []
  cursor : walk.cursorFound = true → ∀ c, query.before = some c → c ∈ visited

variable {query : Query} {head b s : String} {walk after : Walk} {visited : List String} {boundary : Option String}
  {value : PublishedManifest} {record : Publication}

/-- A walk that goes on has passed the snapshot, or found its cursor, or taken an entry. -/
theorem Walk.visit_go (passes : boundary ≠ some s)
    (turned : walk.visit query head boundary s value (some record) = .go after) :
    walk.cursorFound = false ∧ after = { walk with cursorFound := query.before == some s } ∨
      walk.cursorFound = true ∧
        after = { walk with entries := walk.entries ++ [entryOf s value (some record.publishedAt)] } := by
  have flags : walk.flag boundary s (some record) = walk := by
    have other : (boundary == some s) = false := beq_eq_false_iff_ne.mpr passes
    simp [Walk.flag, other]
  simp only [Walk.visit, flags] at turned
  split at turned
  · rename_i unfound
    cases turned
    exact Or.inl ⟨by simpa using unfound, rfl⟩
  · rename_i found
    split at turned
    · cases turned
    · cases turned
      exact Or.inr ⟨by simpa using found, rfl⟩

/-- A visit that goes on has added its snapshot to those visited, and what the walk has gathered is still of
visited snapshots. -/
theorem Walk.Kept.visit (kept : walk.Kept query visited) (passes : boundary ≠ some s)
    (turned : walk.visit query head boundary s value (some record) = .go after) : after.Kept query (s :: visited) := by
  rcases Walk.visit_go passes turned with ⟨unfound, rfl⟩ | ⟨found, rfl⟩
  · have none := kept.empty unfound
    refine ⟨by simp [none], fun _ => none, fun found c before => ?_⟩
    simp only [before, beq_iff_eq, Option.some.injEq] at found
    rw [found]
    exact List.mem_cons_self
  · refine ⟨fun e member => ?_, fun unfound => ?_, fun _ c before => List.mem_cons_of_mem s (kept.cursor found c before)⟩
    · rcases List.mem_append.mp member with old | new
      · exact List.mem_cons_of_mem s (kept.inside e old)
      · rw [List.mem_singleton.mp new]
        exact List.mem_cons_self
    · exact absurd (found.symm.trans unfound) (by decide)

/-- The page of a walk that stops at `b`. -/
theorem Walk.settle_at (further : record.previousSnapshot.isSome) :
    (historyVisitor (B := B) query head).settle (walk.visit query head (some b) b value (some record)) =
      if walk.cursorFound then
        { walk with entries := walk.entries ++ [entryOf b value (some record.publishedAt)], retained := true }.finish query
          head none
      else { walk with cursorFound := query.before == some b, retained := true }.finish query head none := by
  have flags : walk.flag (some b) b (some record) = { walk with retained := true } := by
    simp [Walk.flag, further]
  simp only [Walk.visit, flags]
  cases found : walk.cursorFound with
  | false => rfl
  | true =>
    simp only [Bool.not_true, Bool.false_eq_true, if_false, if_true]
    split
    · simp only [Visitor.settle, onward, if_true, Option.map_some]
    · rfl

/-- Arriving at the boundary, the walk with it and the walk without it differ in one thing: whether there is more
behind. Settled at the boundary, they agree. -/
theorem Walk.Kept.turn (kept : walk.Kept query visited) (fresh : b ∉ visited) (passes : boundary ≠ some b)
    (further : record.previousSnapshot.isSome)
    (turned : walk.visit query head boundary b value (some record) = .go after) :
    (historyVisitor (B := B) query head).settle (walk.visit query head (some b) b value (some record)) =
      after.cross query head b := by
  rw [Walk.settle_at further]
  rcases Walk.visit_go passes turned with ⟨unfound, rfl⟩ | ⟨found, rfl⟩
  · have none := kept.empty unfound
    simp only [unfound, Bool.false_eq_true, if_false, Walk.cross, none]
    by_cases here : query.before = some b
    · simp only [here, if_true]
    · simp [here, Walk.finish]
  · have elsewhere : query.before ≠ some b := fun before => fresh (kept.cursor found b before)
    have others : walk.entries.findIdx? (fun e => e.snapshot == b) = none := by
      refine List.findIdx?_eq_none_iff.mpr fun e member => ?_
      simp only [beq_eq_false_iff_ne, ne_eq]
      intro same
      exact fresh (same ▸ kept.inside e member)
    have last : (walk.entries ++ [entryOf b value (some record.publishedAt)]).findIdx? (fun e => e.snapshot == b) =
        some walk.entries.length := by
      rw [List.findIdx?_append, others]
      simp [entryOf]
    simp only [found, if_true, Walk.cross, if_neg elsewhere, last]
    rw [List.take_of_length_le (by simp)]

/-- What the walk makes of the boundary later does not depend on a visit of another snapshot. -/
theorem Walk.Kept.frame (kept : walk.Kept query visited) (differs : s ≠ b) (passes : boundary ≠ some s)
    (turned : walk.visit query head boundary s value (some record) = .go after) :
    after.cross query head b = walk.cross query head b := by
  rcases Walk.visit_go passes turned with ⟨unfound, rfl⟩ | ⟨found, rfl⟩
  · have none := kept.empty unfound
    simp only [Walk.cross, none]
    by_cases here : query.before = some b
    · have other : (query.before == some s) = false := by
        rw [here]
        simpa using differs.symm
      simp [here, Walk.finish, unfound, differs.symm]
    · simp [here]
  · simp only [Walk.cross]
    by_cases here : query.before = some b
    · simp only [here, if_true]
    · simp only [if_neg here, List.findIdx?_append]
      cases position : walk.entries.findIdx? (fun e => e.snapshot == b) with
      | none => simp [entryOf, differs]
      | some at_ =>
        have bound := (List.findIdx?_eq_some_iff_getElem.mp position).1
        simp only [Option.some_or]
        rw [List.take_append_of_le_length (by omega)]

/-- The visitor of a page is one whose walks may cross a boundary that moves: each of its visits satisfies the
laws above. -/
theorem history_lawful (query : Query) (head b : String) :
    (historyVisitor (B := B) query head).Lawful b (Walk.Kept query) where
  same := by
    intro boundary other state s document value record passes passes'
    have flags : state.flag boundary s record = state.flag other s record := by
      simp only [Walk.flag, beq_eq_false_iff_ne.mpr passes, beq_eq_false_iff_ne.mpr passes']
    simp only [historyVisitor, Walk.visit, flags, onward, if_neg passes, if_neg passes']
  keep known _ passes turned := known.visit passes turned
  turn known fresh passes further turned := known.turn fresh passes further turned
  frame known differs passes turned := known.frame differs passes turned

/-- The visitor that looks for a hash carries nothing along, so the laws hold of it with no invariant. -/
theorem byHash_lawful (hash b : String) : (byHashVisitor (B := B) hash).Lawful b fun _ _ => True where
  same _ _ := rfl
  keep _ _ _ _ := trivial
  turn _ _ _ _ turned := by
    simp only [byHashVisitor] at turned ⊢
    rw [turned]
    rfl
  frame _ _ _ _ := rfl

end SiriusProxy.Master
