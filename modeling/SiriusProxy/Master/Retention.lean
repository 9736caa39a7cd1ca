import SiriusProxy.Master.Publish

namespace SiriusProxy.Master
open Reads (eval)

variable {B : Type} {lib : Serde B}

/-- `b` was named before `a`, newest first. -/
def Behind (named : List String) (a b : String) : Prop := ∃ front back, named = front ++ a :: back ∧ b ∈ back

def Bounded (lib : Serde B) (root : Root B) (b : String) : Prop := root.retention = some (.file (lib.ofRetention ⟨1, b⟩))

variable {region : Region} {root : Root B} {named live removed legacy : List String} {w x : World lib}

theorem Behind.cons {a b s : String} (behind : Behind named a b) : Behind (s :: named) a b := by
  obtain ⟨front, back, split, member⟩ := behind
  exact ⟨s :: front, back, by rw [split]; rfl, member⟩

/-- With no name twice, what lies behind is behind in one order only, so the two splits of the list can be
put together. -/
theorem Behind.trans {a b c : String} (distinct : named.Nodup) (first : Behind named a b) (second : Behind named b c) :
    Behind named a c := by
  obtain ⟨front, back, split, member⟩ := first
  obtain ⟨newer, older, again, last⟩ := second
  obtain ⟨middle, rest, inside⟩ := List.append_of_mem member
  have position : named = (front ++ a :: middle) ++ b :: rest := by
    rw [split, inside]
    simp
  rw [position] at distinct again
  obtain ⟨-, alone, apart⟩ := List.nodup_append.mp distinct
  have unseen : b ∉ front ++ a :: middle := fun seen => apart b seen b List.mem_cons_self rfl
  have after : b ∉ rest := (List.nodup_cons.mp alone).1
  obtain ⟨-, -, same⟩ := (List.append_cons_inj_of_notMem unseen after).mp again
  refine ⟨front, back, split, ?_⟩
  rw [inside, same]
  simp [last]

/-- Past the live snapshots no record is found: the next one is removed, or has none. -/
theorem Shape.eval_end (shape : Shape lib region root named live removed legacy) {s : String}
    (next : (removed ++ legacy).head? = some s) (visited : List String) :
    eval root ((snapshotDirectory s).zoom fun root => root.snapshots s) = .error .notFound ∨
      eval root ((snapshotDirectory s).zoom fun root => root.snapshots s) = .ok () ∧
        eval root ((publication lib s visited).zoom fun root => root.snapshots s) = .ok none := by
  cases start : removed with
  | cons first rest =>
    rw [start] at next
    cases next
    exact Or.inl (eval_zoom_missing (shape.gone s (by rw [start]; exact List.mem_cons_self)))
  | nil =>
    rw [start] at next
    rcases shape.ending with empty | ⟨last, only, there⟩
    · rw [empty] at next
      cases next
    · rw [only] at next
      cases next
      have valid : isSnapshotName s = true := shape.names s (by rw [shape.split, only]; simp)
      obtain ⟨files, p, i, found, facts⟩ := there
      exact Or.inr ⟨eval_zoom_directory found valid, Legacy.eval_publication ⟨files, p, i, found, facts⟩ visited⟩

/-- The first loop stops at the `keep`-th live snapshot or at the recorded boundary before it. -/
theorem Shape.window_spec (shape : Shape lib region root named live removed legacy) {old : Option String}
    {done more visited : List String} {remaining : Nat} {found : Window} (position : live = done ++ more)
    (read : eval root (window lib old remaining visited (more ++ removed ++ legacy).head?) = .ok (some found)) :
    ∃ front back, more = front ++ found.boundary :: back ∧ found.behind = (back ++ removed ++ legacy).head? ∧
      (front.length + 1 = remaining ∨ old = some found.boundary) ∧ ∀ o ∈ front, old ≠ some o := by
  induction more generalizing done visited remaining with
  | nil =>
    exfalso
    rw [List.nil_append] at read
    cases next : (removed ++ legacy).head? with
    | none =>
      rw [next] at read
      cases remaining <;> cases read
    | some s =>
      rw [next] at read
      cases remaining with
      | zero => cases read
      | succ remaining =>
        simp only [window] at read
        split at read
        · cases read
        · obtain ⟨record, first, read⟩ := Reads.eval_bind_eq_ok read
          rw [Master.eval_member] at first
          rcases shape.eval_end next (s :: visited) with missing | ⟨there, unrecorded⟩
          · rw [missing] at first
            cases first
          · rw [there] at first
            cases unrecorded.symm.trans first
            cases read
  | cons s more ih =>
    have next : (s :: more ++ removed ++ legacy).head? = some s := rfl
    rw [next] at read
    cases remaining with
    | zero => cases read
    | succ remaining =>
      simp only [window] at read
      split at read
      · cases read
      · obtain ⟨record, first, read⟩ := Reads.eval_bind_eq_ok read
        obtain ⟨publishedAt, known⟩ := shape.eval_member position (s :: visited)
        rw [known] at first
        split at first
        · cases first
          simp only at read
          split at read
          · rename_i stops
            cases read
            refine ⟨[], more, rfl, rfl, ?_, by simp⟩
            rcases stops with last | recorded
            · exact Or.inl (by rw [last]; rfl)
            · exact Or.inr recorded
          · rename_i goes
            rw [not_or] at goes
            obtain ⟨front, back, split, behind, stop, unmet⟩ :=
              ih (show live = (done ++ [s]) ++ more by rw [position]; simp) read
            refine ⟨s :: front, back, by rw [split]; rfl, behind, ?_, ?_⟩
            · rcases stop with count | recorded
              · exact Or.inl (by rw [List.length_cons, count])
              · exact Or.inr recorded
            · intro o member
              rcases List.mem_cons.mp member with rfl | later
              · exact goes.2
              · exact unmet o later
        · cases first

/-- The second loop lists the live snapshots behind the boundary, all of them. -/
theorem Shape.candidates_spec (shape : Shape lib region root named live removed legacy)
    {done more visited : List String} {room : Nat} {found : List String} (position : live = done ++ more)
    (read : eval root (candidates lib room visited (more ++ removed ++ legacy).head?) = .ok found) : found = more := by
  induction more generalizing done visited room found with
  | nil =>
    rw [List.nil_append] at read
    cases next : (removed ++ legacy).head? with
    | none =>
      rw [next] at read
      cases room <;> cases read <;> rfl
    | some s =>
      rw [next] at read
      cases room with
      | zero => cases read
      | succ room =>
        simp only [candidates] at read
        split at read
        · cases read
        · obtain ⟨directory, first, read⟩ := Reads.eval_bind_eq_ok read
          rw [Reads.eval_attempt] at first
          rcases shape.eval_end next (s :: visited) with missing | ⟨there, unrecorded⟩
          · rw [missing] at first
            cases first
            cases read
            rfl
          · rw [there] at first
            cases first
            obtain ⟨record, second, read⟩ := Reads.eval_bind_eq_ok read
            cases unrecorded.symm.trans second
            cases read
            rfl
  | cons s more ih =>
    have next : (s :: more ++ removed ++ legacy).head? = some s := rfl
    rw [next] at read
    cases room with
    | zero => cases read
    | succ room =>
      simp only [candidates] at read
      split at read
      · cases read
      · obtain ⟨directory, first, read⟩ := Reads.eval_bind_eq_ok read
        obtain ⟨publishedAt, known⟩ := shape.eval_member position (s :: visited)
        rw [Master.eval_member] at known
        rw [Reads.eval_attempt] at first
        cases there : eval root ((snapshotDirectory s).zoom fun root => root.snapshots s) with
        | error e =>
          rw [there] at known
          split at known <;> cases known
          rw [there] at first
          cases first
          cases read
        | ok u =>
          rw [there] at known first
          cases first
          obtain ⟨record, second, read⟩ := Reads.eval_bind_eq_ok read
          change eval root ((publication lib s (s :: visited)).zoom fun root => root.snapshots s) = _ at known
          rw [known] at second
          split at second
          · cases second
            obtain ⟨rest, third, read⟩ := Reads.eval_bind_eq_ok read
            cases read
            rw [ih (show live = (done ++ [s]) ++ more by rw [position]; simp) third]
          · cases second

/-- The plan of a pass: its candidates are the live snapshots behind its boundary, which is the
`keep`-th of them or the boundary that was recorded before. -/
structure Planned (lib : Serde B) (root : Root B) (live : List String) (keep : Nat) (plan : Plan) (front : List String) :
    Prop where
  split : live = front ++ plan.boundary :: plan.candidates
  recorded : root.retention = plan.old.map fun b => .file (lib.ofRetention ⟨1, b⟩)
  stop : front.length + 1 = keep ∨ plan.old = some plan.boundary
  unmet : ∀ o ∈ front, plan.old ≠ some o

/-- A plan that is read names a boundary of the live snapshots and lists exactly those behind it that may go: what
the two loops find, put together. -/
theorem Shape.plan_spec (shape : Shape lib region root named live removed legacy) {keep : Nat} {plan : Plan}
    (read : eval root (prunePlan lib keep) = .ok (some plan)) : ∃ front, Planned lib root live keep plan front := by
  unfold prunePlan at read
  split at read
  · cases read
  · rw [Reads.eval_bind_ok shape.eval_predecessor] at read
    cases first : named.head? with
    | none =>
      rw [first] at read
      cases read
    | some head =>
      rw [first] at read
      simp only at read
      have recorded : ∃ old, eval root (retentionBoundary lib) = .ok old ∧
          root.retention = old.map fun b => .file (lib.ofRetention ⟨1, b⟩) := by
        rcases shape.eval_boundary with ⟨absent, -, known⟩ | ⟨b, -, there, known⟩
        · exact ⟨none, known, absent⟩
        · exact ⟨some b, known, there⟩
      obtain ⟨old, known, recorded⟩ := recorded
      rw [Reads.eval_bind_ok known] at read
      obtain ⟨found, looked, read⟩ := Reads.eval_bind_eq_ok read
      cases found with
      | none => cases read
      | some found =>
        obtain ⟨behind, listed, read⟩ := Reads.eval_bind_eq_ok read
        split at read
        · cases read
        · cases read
          rw [← first, shape.split] at looked
          obtain ⟨front, back, split, next, stop, unmet⟩ :=
            shape.window_spec (show live = [] ++ live from rfl) looked
          rw [next] at listed
          have all : behind = back :=
            shape.candidates_spec (show live = (front ++ [found.boundary]) ++ back by rw [split]; simp) listed
          subst all
          exact ⟨front, split, recorded, stop, unmet⟩

/-- What a pass under way may still remove: the oldest live snapshots, behind the recorded boundary,
and none of the newest `keep` unless it lay behind the boundary recorded before the pass. -/
structure Removing (lib : Serde B) (root : Root B) (named live : List String) (keep : Nat) (old : Option String)
    (removals : List String) (kept : List String) (b : String) : Prop where
  bounded : Bounded lib root b
  inside : b ∈ kept
  split : live = kept ++ removals.reverse
  spared : ∀ s ∈ removals, s ∉ named.take keep ∨ ∃ o, old = some o ∧ Behind named o s

def Phase.Pruning (root : Root B) (named live : List String) : Phase lib → Prop
  | .planned keep plan removals => (∃ front, Planned lib root live keep plan front) ∧
      ∃ budget, removals = plan.candidates.reverse.take budget
  | .removing keep old removals => ∃ kept b, Removing lib root named live keep old removals kept b
  | _ => False

structure Inv (region : Region) (w : World lib) (live removed legacy : List String) : Prop where
  shape : Shape lib region w.root w.named live removed legacy
  phase : w.phase.Publishing region w.root w.named ∨ w.phase.Pruning w.root w.named live

/-- A pass that has its boundary on record removes from the old end. -/
theorem Planned.removing (shape : Shape lib region root named live removed legacy) {keep : Nat} {plan : Plan}
    {front : List String} (planned : Planned lib root live keep plan front) {after : Root B}
    (bounded : Bounded lib after plan.boundary) (budget : Nat) :
    ∃ kept, Removing lib after named live keep plan.old (plan.candidates.reverse.take budget) kept plan.boundary := by
  refine ⟨front ++ plan.boundary :: plan.candidates.take (plan.candidates.length - budget), bounded, by simp, ?_, ?_⟩
  · have cut : (plan.candidates.reverse.take budget).reverse =
        plan.candidates.drop (plan.candidates.length - budget) := by
      rw [List.take_reverse, List.reverse_reverse]
    rw [cut, planned.split]
    simp
  · intro s member
    have listed : s ∈ plan.candidates := List.mem_reverse.mp (List.mem_of_mem_take member)
    have position : named = front ++ plan.boundary :: (plan.candidates ++ removed ++ legacy) := by
      rw [shape.split, planned.split]
      simp
    rcases planned.stop with count | recorded
    · refine Or.inl fun newest => ?_
      have newer : named.take keep = front ++ [plan.boundary] := by
        rw [position, ← count, List.take_append, List.take_of_length_le (by omega)]
        simp
      have distinct := shape.distinct
      rw [position, List.append_cons, List.nodup_append] at distinct
      rw [newer] at newest
      exact distinct.2.2 s newest s (by simp [listed]) rfl
    · refine Or.inr ⟨plan.boundary, recorded, front, plan.candidates ++ removed ++ legacy, position, ?_⟩
      simp [listed]

/-- Recording a boundary that is still there changes nothing that the shape of the directory speaks of. -/
theorem Shape.bound (shape : Shape lib region root named live removed legacy) {b : String} (member : b ∈ live) :
    Shape lib region { root with retention := some (.file (lib.ofRetention ⟨1, b⟩)) } named live removed legacy where
  split := shape.split
  pointer := shape.pointer
  names := shape.names
  distinct := shape.distinct
  linked := shape.linked
  gone := shape.gone
  ending := shape.ending
  boundary := Or.inr ⟨b, member, rfl⟩

theorem Root.without_other {s snapshot : String} (differs : s ≠ snapshot) :
    (root.without snapshot).snapshots s = root.snapshots s :=
  Function.update_of_ne differs ..

/-- The last live snapshot leaves its path. -/
theorem Shape.remove (shape : Shape lib region root named (live ++ [s]) removed legacy) {b : String}
    (inside : b ∈ live) (bounded : Bounded lib root b) :
    Shape lib region (root.without s) named live (s :: removed) legacy := by
  have position : named = live ++ s :: (removed ++ legacy) := by
    rw [shape.split]
    simp
  have distinct := shape.distinct
  rw [position, List.nodup_append, List.nodup_cons] at distinct
  obtain ⟨-, ⟨alone, -⟩, apart⟩ := distinct
  refine ⟨by rw [shape.split]; simp, shape.pointer, shape.names, shape.distinct, fun i t found => ?_, fun t member => ?_,
    ?_, Or.inr ⟨b, inside, bounded⟩⟩
  · have listed : t ∈ live := List.mem_of_getElem? found
    have differs : t ≠ s := apart t listed s List.mem_cons_self
    have bound : i < live.length := (List.getElem?_eq_some_iff.mp found).1
    obtain ⟨files, there, recorded⟩ := shape.linked i t ((List.getElem?_append_left bound).trans found)
    exact ⟨files, (Root.without_other differs).trans there, recorded⟩
  · rcases List.mem_cons.mp member with rfl | older
    · exact Function.update_self ..
    · have differs : t ≠ s := by
        intro same
        subst same
        exact alone (List.mem_append_left _ older)
      exact (Root.without_other differs).trans (shape.gone t older)
  · rcases shape.ending with empty | ⟨t, last, files, p, i, there, facts⟩
    · exact Or.inl empty
    · have differs : t ≠ s := by
        intro same
        subst same
        exact alone (by rw [last]; simp)
      exact Or.inr ⟨t, last, files, p, i, (Root.without_other differs).trans there, facts⟩

theorem Inv.publishing (inv : Publishing region w live removed legacy) : Inv region w live removed legacy :=
  ⟨inv.shape, Or.inl inv.phase⟩

/-- From rest a pass begins with its plan, if the plan can be read, and with nothing to do otherwise. -/
theorem Shape.plans (shape : Shape lib region w.root w.named live removed legacy) (idle : w.phase = .idle)
    (keep budget : Nat) : Inv region (w.prune keep budget) live removed legacy := by
  have unchanged : Inv region w live removed legacy := ⟨shape, Or.inl (by rw [idle]; trivial)⟩
  unfold World.prune
  split
  · exact unchanged
  · exact unchanged
  · rename_i plan read
    obtain ⟨front, planned⟩ := shape.plan_spec read
    simp only
    split
    · rename_i same
      have recorded := planned.recorded
      rw [same] at recorded
      obtain ⟨kept, removing⟩ := planned.removing shape recorded budget
      exact ⟨shape, Or.inr ⟨kept, plan.boundary, removing⟩⟩
    · exact ⟨shape, Or.inr ⟨⟨front, planned⟩, budget, rfl⟩⟩

/-- A pass writes its boundary, or removes its oldest snapshot. -/
theorem Inv.prunes {label : Label lib} (shape : Shape lib region w.root w.named live removed legacy)
    (pruning : w.phase.Pruning w.root w.named live) (taken : step w label = some x) :
    ∃ live removed, Inv region x live removed legacy := by
  cases phase : w.phase with
  | idle | checked | staged | installed =>
    rw [phase] at pruning
    exact pruning.elim
  | planned keep plan removals =>
    rw [phase] at pruning
    obtain ⟨⟨front, planned⟩, budget, rfl⟩ := pruning
    cases label with
    | bound =>
      simp only [Master.step, phase] at taken
      cases taken
      have inside : plan.boundary ∈ live := by
        rw [planned.split]
        simp
      have bounded : Bounded lib { w.root with retention := some (.file (lib.ofRetention ⟨1, plan.boundary⟩)) }
          plan.boundary := rfl
      obtain ⟨kept, removing⟩ := planned.removing shape bounded budget
      exact ⟨live, removed, shape.bound inside, Or.inr ⟨kept, plan.boundary, removing⟩⟩
    | stop =>
      cases taken
      exact ⟨live, removed, shape, Or.inl trivial⟩
    | publish | record | install | point | prune | remove =>
      simp only [Master.step, phase] at taken
      cases taken
  | removing keep old removals =>
    rw [phase] at pruning
    obtain ⟨kept, b, removing⟩ := pruning
    cases label with
    | remove =>
      cases removals with
      | nil =>
        simp only [Master.step, phase] at taken
        cases taken
      | cons s removals =>
        simp only [Master.step, phase] at taken
        cases taken
        have split : live = (kept ++ removals.reverse) ++ [s] := by
          rw [removing.split]
          simp
        rw [split] at shape
        refine ⟨kept ++ removals.reverse, s :: removed, shape.remove (by simp [removing.inside]) removing.bounded,
          Or.inr ⟨kept, b, removing.bounded, removing.inside, rfl, fun t member => ?_⟩⟩
        exact removing.spared t (List.mem_cons_of_mem s member)
    | stop =>
      cases taken
      exact ⟨live, removed, shape, Or.inl trivial⟩
    | publish | record | install | point | prune | bound =>
      simp only [Master.step, phase] at taken
      cases taken

/-- What one step keeps, publication or retention. The two families of steps meet only in the shape of the
directory; a step of one leaves the other at rest. -/
theorem Inv.step {label : Label lib} (inv : Inv region w live removed legacy) (taken : step w label = some x) :
    ∃ region live removed legacy, Inv region x live removed legacy := by
  rcases inv.phase with publishing | pruning
  · by_cases publishes : label.publishes
    · have before : Publishing region w live removed legacy := ⟨inv.shape, publishing⟩
      obtain ⟨region, live, legacy, after⟩ := before.step publishes taken
      exact ⟨region, live, removed, legacy, .publishing after⟩
    · cases label with
      | prune keep budget =>
        simp only [Master.step] at taken
        split at taken
        · rename_i idle
          cases taken
          exact ⟨region, live, removed, legacy, inv.shape.plans idle keep budget⟩
        · cases taken
      | _ => exact absurd trivial publishes
  · obtain ⟨live, removed, after⟩ := Inv.prunes inv.shape pruning taken
    exact ⟨region, live, removed, legacy, after⟩

theorem Inv.reach {start : World lib} (initial : Initial start) (reach : Run.Reach Master.step (fun _ _ => True) start w) :
    ∃ region live removed legacy, Inv region w live removed legacy := by
  refine reach.invariant (P := fun w => ∃ region live removed legacy, Inv region w live removed legacy) ?_ ?_
  · obtain ⟨region, live, legacy, inv⟩ := initial.publishing
    exact ⟨region, live, [], legacy, .publishing inv⟩
  · intro s label t inv _ taken
    obtain ⟨region, live, removed, legacy, inv⟩ := inv
    exact inv.step taken

/-- What a pass removes next is behind the recorded boundary, so neither `CURRENT` nor one that readers
were promised, and none of the newest `keep` unless readers were told before the pass that it is gone. -/
theorem Inv.removes (inv : Inv region w live removed legacy) {keep : Nat} {old : Option String} {s : String}
    {rest : List String} (phase : w.phase = .removing keep old (s :: rest)) :
    s ∈ live ∧ (∃ b, Bounded lib w.root b ∧ Behind w.named b s) ∧
      (s ∉ w.named.take keep ∨ ∃ o, old = some o ∧ Behind w.named o s) := by
  have pruning := inv.phase
  rw [phase] at pruning
  obtain ⟨kept, b, removing⟩ := pruning.resolve_left fun publishing => publishing
  have behind : Behind w.named b s := by
    obtain ⟨front, back, inside⟩ := List.append_of_mem removing.inside
    refine ⟨front, back ++ (s :: rest).reverse ++ removed ++ legacy, ?_, by simp⟩
    rw [inv.shape.split, removing.split, inside]
    simp
  exact ⟨by rw [removing.split]; simp, ⟨b, removing.bounded, behind⟩, removing.spared s List.mem_cons_self⟩

/-- What lies behind another snapshot is not the current one. -/
theorem Behind.not_head {a b : String} (distinct : named.Nodup) (behind : Behind named a b) : named.head? ≠ some b := by
  obtain ⟨front, back, split, member⟩ := behind
  intro first
  rw [split] at distinct first
  cases front with
  | nil =>
    cases first
    exact (List.nodup_cons.mp distinct).1 member
  | cons c front =>
    cases first
    exact (List.nodup_cons.mp distinct).1 (by simp [member])

/-- One recorded boundary is read as one name. -/
theorem Bounded.unique {b c : String} (first : Bounded lib root b) (second : Bounded lib root c) : b = c := by
  have same := Option.some.inj (first.symm.trans second)
  simp only [Node.file.injEq] at same
  have read := congrArg lib.retention same
  rw [lib.retention_ofRetention, lib.retention_ofRetention] at read
  cases read
  rfl

/-- Only a pass writes a boundary, and none that is older. -/
theorem Inv.bounded_step {label : Label lib} {b : String} (inv : Inv region w live removed legacy)
    (bounded : Bounded lib w.root b) (taken : Master.step w label = some x) :
    ∃ c, Bounded lib x.root c ∧ (c = b ∨ Behind w.named c b) := by
  rcases step_root taken with ⟨root, -⟩ | ⟨_, _, -, -, root, -⟩ | ⟨_, -, -, root, -⟩ |
    ⟨keep, plan, removals, -, phase, root, -⟩ | ⟨_, _, _, _, -, -, root, -⟩
  · exact ⟨b, by rwa [root], Or.inl rfl⟩
  · exact ⟨b, by rwa [root], Or.inl rfl⟩
  · exact ⟨b, by rwa [root], Or.inl rfl⟩
  · have pruning := inv.phase
    rw [phase] at pruning
    obtain ⟨⟨front, planned⟩, -⟩ := pruning.resolve_left fun publishing => publishing
    have old : plan.old = some b := by
      have recorded := planned.recorded
      cases known : plan.old with
      | none =>
        rw [known] at recorded
        cases bounded.symm.trans recorded
      | some o =>
        rw [known] at recorded
        rw [Bounded.unique recorded bounded]
    have member : b ∈ live := by
      rcases inv.shape.boundary with ⟨absent, -⟩ | ⟨c, inside, recorded⟩
      · cases bounded.symm.trans absent
      · rwa [Bounded.unique bounded recorded]
    refine ⟨plan.boundary, by rw [root]; rfl, ?_⟩
    rw [planned.split] at member
    rcases List.mem_append.mp member with newer | rest
    · exact absurd old (planned.unmet b newer)
    · rcases List.mem_cons.mp rest with same | older
      · exact Or.inl same.symm
      · refine Or.inr ⟨front, plan.candidates ++ removed ++ legacy, ?_, by simp [older]⟩
        rw [inv.shape.split, planned.split]
        simp
  · exact ⟨b, by rwa [root], Or.inl rfl⟩

theorem Behind.step {label : Label lib} {a b : String} (behind : Behind w.named a b)
    (taken : Master.step w label = some x) : Behind x.named a b := by
  rcases step_pointer taken with ⟨-, same⟩ | ⟨s, -, -, longer⟩
  · rwa [same]
  · rw [longer]
    exact behind.cons

/-- The boundary that readers were told never moves back. -/
theorem Inv.bounded_reach {b : String} (inv : Inv region w live removed legacy) (bounded : Bounded lib w.root b)
    (reach : Run.Reach Master.step (fun _ _ => True) w x) :
    ∃ c, Bounded lib x.root c ∧ (c = b ∨ Behind x.named c b) := by
  refine (reach.invariant (P := fun x => (∃ region live removed legacy, Inv region x live removed legacy) ∧
    ∃ c, Bounded lib x.root c ∧ (c = b ∨ Behind x.named c b)) ⟨⟨_, _, _, _, inv⟩, b, bounded, Or.inl rfl⟩ ?_).2
  intro s label t known _ taken
  obtain ⟨⟨region, live, removed, legacy, inv⟩, c, bounded, order⟩ := known
  obtain ⟨region', live', removed', legacy', after⟩ := inv.step taken
  refine ⟨⟨region', live', removed', legacy', after⟩, ?_⟩
  obtain ⟨d, recorded, moved⟩ := inv.bounded_step bounded taken
  refine ⟨d, recorded, ?_⟩
  rcases order with rfl | older
  · rcases moved with rfl | newer
    · exact Or.inl rfl
    · exact Or.inr (newer.step taken)
  · rcases moved with rfl | newer
    · exact Or.inr (older.step taken)
    · exact Or.inr ((newer.step taken).trans after.shape.distinct (older.step taken))

/-- A directory changes only where a new one is installed or a pass removes it. -/
theorem Inv.touches {label : Label lib} (inv : Inv region w live removed legacy) (taken : Master.step w label = some x)
    (s : String) : x.root.snapshots s = w.root.snapshots s ∨ label = .install ∧ w.root.snapshots s = none ∨
      ∃ keep old rest, label = .remove ∧ w.phase = .removing keep old (s :: rest) := by
  rcases step_root taken with ⟨root, -⟩ | ⟨snapshot, files, installs, phase, root, -⟩ | ⟨_, -, -, root, -⟩ |
    ⟨_, _, _, -, -, root, -⟩ | ⟨keep, old, snapshot, rest, removes, phase, root, -⟩
  · exact Or.inl (by rw [root])
  · have publishing := inv.phase
    rw [phase] at publishing
    obtain ⟨⟨fresh, -⟩, -⟩ := publishing.resolve_right fun pruning => pruning
    by_cases same : s = snapshot
    · subst same
      exact Or.inr (Or.inl ⟨installs, fresh⟩)
    · rw [root]
      exact Or.inl (Root.installed_other same)
  · exact Or.inl (by rw [root])
  · exact Or.inl (by rw [root])
  · by_cases same : s = snapshot
    · subst same
      exact Or.inr (Or.inr ⟨keep, old, rest, removes, phase⟩)
    · rw [root]
      exact Or.inl (Root.without_other same)

/-- In every run of publications and passes, however they stop: what `CURRENT` has named is the recorded
snapshots that are there, each naming the one after it, then those removed, then at most one without
a record. Once anything is removed there is a recorded boundary among the first; it never moves to
an older snapshot. A directory changes only when a new one is installed or when a pass removes a
recorded snapshot of the chain that is not `CURRENT`, is behind the recorded boundary, and is not one of
the newest `keep` unless it was behind the boundary recorded before that pass. -/
theorem retention_keeps {start : World lib} (initial : Initial start)
    (reach : Run.Reach step (fun _ _ => True) start w) :
    w.root.current = w.named.head?.map (fun s => .file (lib.ofString s)) ∧ w.named.Nodup ∧
    ∃ region live removed legacy, w.named = live ++ removed ++ legacy ∧
      (∀ i s, live[i]? = some s → Member lib region w.root s w.named[i + 1]?) ∧
      (∀ s ∈ removed, w.root.snapshots s = none) ∧
      (legacy = [] ∨ ∃ s, legacy = [s] ∧ Legacy lib region w.root s) ∧
      (w.root.retention = none ∧ removed = [] ∨ ∃ b ∈ live, Bounded lib w.root b) ∧
      (∀ b x, Bounded lib w.root b → Run.Reach step (fun _ _ => True) w x →
        ∃ c, Bounded lib x.root c ∧ (c = b ∨ Behind x.named c b)) ∧
      ∀ label x s, step w label = some x → x.root.snapshots s = w.root.snapshots s ∨
        label = .install ∧ w.root.snapshots s = none ∨
        ∃ keep old rest, label = .remove ∧ w.phase = .removing keep old (s :: rest) ∧ s ∈ live ∧
          w.named.head? ≠ some s ∧ (∃ b, Bounded lib w.root b ∧ Behind w.named b s) ∧
          (s ∉ w.named.take keep ∨ ∃ o, old = some o ∧ Behind w.named o s) := by
  obtain ⟨region, live, removed, legacy, inv⟩ := Inv.reach initial reach
  have shape := inv.shape
  refine ⟨shape.pointer, shape.distinct, region, live, removed, legacy, shape.split, shape.linked, shape.gone, shape.ending,
    shape.boundary, fun b x bounded later => inv.bounded_reach bounded later, fun label x s taken => ?_⟩
  rcases inv.touches taken s with same | installed | ⟨keep, old, rest, removes, phase⟩
  · exact Or.inl same
  · exact Or.inr (Or.inl installed)
  · obtain ⟨member, ⟨b, bounded, behind⟩, spared⟩ := inv.removes phase
    exact Or.inr (Or.inr ⟨keep, old, rest, removes, phase, member, behind.not_head shape.distinct, ⟨b, bounded, behind⟩,
      spared⟩)

def publishSample (snapshot : String) (named : isSnapshotName snapshot = true) (publishedAt : Instant) :
    List (Label sampleSerde) :=
  [.publish (samplePrepared snapshot named) publishedAt, .record, .install, .point]

theorem master_b_name : isSnapshotName "master-b" = true := by decide +kernel

theorem master_c_name : isSnapshotName "master-c" = true := by decide +kernel

theorem master_d_name : isSnapshotName "master-d" = true := by decide +kernel

theorem master_e_name : isSnapshotName "master-e" = true := by decide +kernel

/-- Five publications, a pass that keeps two and stops after its first removal, and one that keeps four. -/
def raised : List (Label sampleSerde) :=
  publishSample "master-a" sample_named 1 ++ publishSample "master-b" master_b_name 2 ++
    publishSample "master-c" master_c_name 3 ++ publishSample "master-d" master_d_name 4 ++
    publishSample "master-e" master_e_name 5 ++ [.prune 2 1, .bound, .remove, .stop, .prune 4 64]

def Phase.pass : Phase lib → Option (Nat × Option String × List String)
  | .removing keep old removals => some (keep, old, removals)
  | _ => none

theorem raised_run : (Run.exec step ({ root := {} } : World sampleSerde) raised).map
      (fun w => (w.phase.pass, w.named, (w.root.snapshots "master-b").isSome)) =
    some (some (4, some "master-d", ["master-b", "master-c"]),
      ["master-e", "master-d", "master-c", "master-b", "master-a"], true) := by
  decide +kernel

theorem Phase.pass_eq {phase : Phase lib} {keep : Nat} {old : Option String} {removals : List String}
    (same : phase.pass = some (keep, old, removals)) : phase = .removing keep old removals := by
  cases phase <;> cases same
  rfl

/-- The second pass keeps four and its first removal is the fourth newest. -/
theorem retention_raised : ∃ w x, Run.exec step ({ root := {} } : World sampleSerde) raised = some w ∧
    w.phase = .removing 4 (some "master-d") ["master-b", "master-c"] ∧ "master-b" ∈ w.named.take 4 ∧
    (w.root.snapshots "master-b").isSome ∧ step w .remove = some x ∧ x.root.snapshots "master-b" = none := by
  obtain ⟨w, ran, facts⟩ := Option.map_eq_some_iff.mp raised_run
  simp only [Prod.mk.injEq] at facts
  obtain ⟨pass, named, there⟩ := facts
  have phase := Phase.pass_eq pass
  refine ⟨w, { w with root := w.root.without "master-b", phase := .removing 4 (some "master-d") ["master-c"] }, ran, phase,
    by rw [named]; decide, there, ?_, by simp [Root.without]⟩
  simp only [step, phase]

theorem retention_keeps_raised : ∃ w, Run.exec step ({ root := {} } : World sampleSerde) raised = some w ∧
    (∃ b, Bounded sampleSerde w.root b) ∧ ∀ x, step w .remove = some x →
      x.root.snapshots "master-d" = w.root.snapshots "master-d" := by
  obtain ⟨w, ran, facts⟩ := Option.map_eq_some_iff.mp raised_run
  simp only [Prod.mk.injEq] at facts
  obtain ⟨pass, -, there⟩ := facts
  have phase := Phase.pass_eq pass
  have initial : Initial ({ root := {} } : World sampleSerde) := ⟨rfl, rfl, Or.inl ⟨rfl, rfl⟩⟩
  obtain ⟨-, -, region, live, removed, legacy, -, -, -, -, -, -, touched⟩ :=
    retention_keeps initial (Run.reach_of_exec ran)
  have removal : step w .remove =
      some { w with root := w.root.without "master-b", phase := .removing 4 (some "master-d") ["master-c"] } := by
    simp only [step, phase]
  refine ⟨w, ran, ?_, fun x taken => ?_⟩
  · rcases touched .remove _ "master-b" removal with same | ⟨other, -⟩ | ⟨_, _, _, -, -, -, -, ⟨b, bounded, -⟩, -⟩
    · rw [← same] at there
      simp [Root.without] at there
    · cases other
    · exact ⟨b, bounded⟩
  · rcases touched .remove x "master-d" taken with same | ⟨other, -⟩ | ⟨_, _, _, -, again, -⟩
    · exact same
    · cases other
    · rw [phase] at again
      simp at again

end SiriusProxy.Master
