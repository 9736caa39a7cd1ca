import Mathlib.Tactic.SplitIfs
import SiriusProxy.Lib.Run

namespace SiriusProxy.SingleFlight
universe u
variable {V : Type u}

/-- Where the future of a caller is. A caller that is dropped while it runs still has the
initialiser (`dropping`); the outcome of a joiner that timed out is `none`. -/
inductive Phase (V : Type u) where
  | waiting
  | running
  | completed (value : V)
  | dropping (expired : Bool)
  | returned (outcome : Option (Nat × V))
  | dropped

/-- One call of `run`. The leader has a registration until it is released. `before` notes the
fetches that were complete when the caller arrived. -/
structure Caller (V : Type u) where
  cell : Nat
  leader : Bool
  registered : Bool
  phase : Phase V := .waiting
  before : List Nat

/-- A `OnceCell`: who has its initialiser, and the value with the fetch it comes from. -/
structure Cell (V : Type u) where
  holder : Option Nat := none
  value : Option (Nat × V) := none

/-- Everything that concerns one key. The history notes each fetch that completed and its value. -/
structure Flight (V : Type u) where
  inflight : Option Nat := none
  next : Nat := 0
  cells : Nat → Cell V := fun _ => {}
  callers : List (Caller V) := []
  completed : List (Nat × V) := []

inductive Label (V : Type u) where
  | arrive
  | acquire (id : Nat)
  | complete (id : Nat) (value : V)
  | publish (id : Nat)
  | wake (id : Nat)
  | expire (id : Nat)
  | cancel (id : Nat)
  | drop (id : Nat)

def Flight.put (w : Flight V) (id : Nat) (a : Caller V) : Flight V := { w with callers := w.callers.set id a }

def Flight.setCell (w : Flight V) (cell : Nat) (c : Cell V) : Flight V :=
  { w with cells := fun k => if k = cell then c else w.cells k }

/-- `Registration::release`, by hand or by its drop: only the entry of its own cell is removed. -/
def Flight.release (w : Flight V) (a : Caller V) : Flight V :=
  if a.registered then { w with inflight := w.inflight.filter fun cell => decide (cell ≠ a.cell) } else w

/-- The map section of `run`. -/
def Flight.arrive (w : Flight V) : Flight V :=
  let before := w.completed.map (·.1)
  match w.inflight with
  | some cell =>
    { w with callers := w.callers ++ [{ cell := cell, leader := false, registered := false, before := before }] }
  | none =>
    { w with
      inflight := some w.next
      next := w.next + 1
      callers := w.callers ++ [{ cell := w.next, leader := true, registered := true, before := before }] }

/-- A step of the caller `a`. A leader's fetch counts as complete at the moment at which the leader leaves
the map, which the source does between the end of the fetch and the publication of its value: until
then an arriving caller joins the flight, from then on it starts a new one. A dropped future releases
its registration before the initialiser. -/
def act (w : Flight V) (a : Caller V) : Label V → Option (Flight V)
  | .arrive => none
  | .acquire id => match a.phase, w.cells a.cell with
    | .waiting, { holder := none, value := none } =>
      some (w.setCell a.cell { holder := some id } |>.put id { a with phase := .running })
    | _, _ => none
  | .complete id value => match a.phase with
    | .running => some
      { (w.release a).put id { a with phase := .completed value, registered := false } with
        completed := (id, value) :: w.completed }
    | _ => none
  | .publish id => match a.phase with
    | .completed value =>
      some (w.setCell a.cell { value := some (id, value) } |>.put id { a with phase := .returned (some (id, value)) })
    | _ => none
  | .wake id => match a.phase, (w.cells a.cell).value with
    | .waiting, some outcome =>
      some ((w.release a).put id { a with phase := .returned (some outcome), registered := false })
    | _, _ => none
  | .expire id => if a.leader then none else match a.phase with
    | .waiting => some (w.put id { a with phase := .returned none })
    | .running => some (w.put id { a with phase := .dropping true })
    | _ => none
  | .cancel id => match a.phase with
    | .waiting => some ((w.release a).put id { a with phase := .dropped, registered := false })
    | .running => some ((w.release a).put id { a with phase := .dropping false, registered := false })
    | _ => none
  | .drop id => match a.phase with
    | .dropping expired =>
      some (w.setCell a.cell { w.cells a.cell with holder := none } |>.put id
        { a with phase := if expired then .returned none else .dropped })
    | _ => none

def Label.caller : Label V → Option Nat
  | .arrive => none
  | .acquire id => some id
  | .complete id _ => some id
  | .publish id => some id
  | .wake id => some id
  | .expire id => some id
  | .cancel id => some id
  | .drop id => some id

def step (w : Flight V) (l : Label V) : Option (Flight V) :=
  match l.caller with
  | none => some w.arrive
  | some id => w.callers[id]?.bind fun a => act w a l

/-- A joiner takes the initialiser only after the entry of its cell has left the map. -/
def allowed (w : Flight V) : Label V → Prop
  | .acquire id => ∀ a, w.callers[id]? = some a → a.leader = false → w.inflight ≠ some a.cell
  | _ => True

/-- The caller has the initialiser of its cell. -/
def Phase.holds : Phase V → Bool
  | .running => true
  | .completed _ => true
  | .dropping _ => true
  | _ => false

/-- The phases in which a leader still has its registration. -/
def Phase.early : Phase V → Bool
  | .waiting => true
  | .running => true
  | _ => false

/-- The future of the caller has returned or been dropped. -/
def Phase.ended : Phase V → Bool
  | .returned _ => true
  | .dropped => true
  | _ => false

def Flight.cellOf (w : Flight V) (id : Nat) : Option Nat := w.callers[id]?.map (·.cell)

structure CallerInv (w : Flight V) (id : Nat) (a : Caller V) : Prop where
  bound : a.cell < w.next
  registered : a.registered = true → a.leader = true ∧ a.phase.early = true ∧ w.inflight = some a.cell
  holder : a.phase.holds = true → (w.cells a.cell).holder = some id
  joined : a.phase.holds = true → a.leader = false → w.inflight ≠ some a.cell
  before : ∀ k ∈ a.before, ∃ cell, w.cellOf k = some cell ∧ cell ≠ a.cell
  completed : ∀ v, a.phase = .completed v → (id, v) ∈ w.completed
  returned : ∀ k v, a.phase = .returned (some (k, v)) → (k, v) ∈ w.completed ∧ w.cellOf k = some a.cell

structure Inv (w : Flight V) : Prop where
  callers : ∀ id a, w.callers[id]? = some a → CallerInv w id a
  leaders : ∀ (id other : Nat) (a b : Caller V), w.callers[id]? = some a → w.callers[other]? = some b →
    a.leader = true → b.leader = true → a.cell = b.cell → id = other
  entry : ∀ cell, w.inflight = some cell →
    ∃ (id : Nat) (a : Caller V), w.callers[id]? = some a ∧ a.cell = cell ∧ a.registered = true
  completed : ∀ k v, (k, v) ∈ w.completed → ∃ cell, w.cellOf k = some cell ∧ cell < w.next ∧ w.inflight ≠ some cell
  values : ∀ cell k v, (w.cells cell).value = some (k, v) → (k, v) ∈ w.completed ∧ w.cellOf k = some cell

variable {w x : Flight V} {id : Nat} {a b : Caller V}

theorem callers_put {k : Nat} (found : (w.put id a).callers[k]? = some b) :
    k = id ∧ b = a ∨ k ≠ id ∧ w.callers[k]? = some b := by
  change (w.callers.set id a)[k]? = some b at found
  rw [List.getElem?_set] at found
  split_ifs at found with same inside
  · exact Or.inl ⟨same.symm, (Option.some.inj found).symm⟩
  · exact Or.inr ⟨fun eq => same eq.symm, found⟩

theorem put_other {k : Nat} (found : w.callers[k]? = some b) (differs : k ≠ id) :
    (w.put id a).callers[k]? = some b := by
  change (w.callers.set id a)[k]? = some b
  rw [List.getElem?_set_ne (Ne.symm differs)]
  exact found

theorem put_self (found : w.callers[id]? = some b) : (w.put id a).callers[id]? = some a := by
  change (w.callers.set id a)[id]? = some a
  obtain ⟨inside, -⟩ := List.getElem?_eq_some_iff.mp found
  exact List.getElem?_set_self inside

theorem cellOf_caller (found : w.callers[id]? = some a) : w.cellOf id = some a.cell := by
  unfold Flight.cellOf
  rw [found]
  rfl

/-- A step of a caller does not change which cell any caller uses. -/
theorem cellOf_put (found : w.callers[id]? = some b) (same : a.cell = b.cell) (k : Nat) :
    (w.put id a).cellOf k = w.cellOf k := by
  by_cases mine : k = id
  · subst mine
    rw [cellOf_caller (put_self found), cellOf_caller found, same]
  · unfold Flight.cellOf
    change (w.callers.set id a)[k]?.map _ = _
    rw [List.getElem?_set_ne (Ne.symm mine)]

/-- What a step of the caller `id`, now `b`, does to the rest. -/
structure Moved (w x : Flight V) (id : Nat) (a b : Caller V) : Prop where
  callers : x.callers = (w.put id b).callers
  next : x.next = w.next
  cell : b.cell = a.cell
  leader : b.leader = a.leader
  before : b.before = a.before
  inflight : x.inflight = w.inflight ∨ a.registered = true ∧ x.inflight = none
  registered : b.registered = true → a.registered = true
  entry : x.inflight = some a.cell → a.registered = true → b.registered = true
  cells : ∀ c, c ≠ a.cell → x.cells c = w.cells c
  holder : (x.cells a.cell).holder = (w.cells a.cell).holder ∨ (w.cells a.cell).holder = none ∨
    a.phase.holds = true
  completed : w.completed ⊆ x.completed
  fresh : ∀ k v, (k, v) ∈ x.completed → (k, v) ∈ w.completed ∨ k = id ∧ x.inflight ≠ some a.cell
  values : ∀ k v, (x.cells a.cell).value = some (k, v) → (w.cells a.cell).value = some (k, v) ∨
    k = id ∧ (k, v) ∈ x.completed

theorem Moved.cellOf (moved : Moved w x id a b) (found : w.callers[id]? = some a) (k : Nat) :
    x.cellOf k = w.cellOf k := by
  have same := cellOf_put found moved.cell k
  unfold Flight.cellOf at same ⊢
  rw [moved.callers]
  exact same

theorem Moved.not_entry (moved : Moved w x id a b) {cell : Nat} (gone : w.inflight ≠ some cell) :
    x.inflight ≠ some cell := by
  rcases moved.inflight with same | ⟨-, empty⟩
  · rw [same]
    exact gone
  · rw [empty]
    exact nofun

/-- The other callers keep their invariant. -/
theorem Moved.other (moved : Moved w x id a b) (inv : Inv w) (found : w.callers[id]? = some a) {k : Nat}
    {c : Caller V} (differs : k ≠ id) (other : w.callers[k]? = some c) : CallerInv x k c := by
  have own := inv.callers k c other
  refine ⟨?_, ?_, ?_, fun holds joiner => moved.not_entry (own.joined holds joiner), ?_, ?_, ?_⟩
  · rw [moved.next]
    exact own.bound
  · intro registered
    obtain ⟨leader, going, entry⟩ := own.registered registered
    refine ⟨leader, going, ?_⟩
    rcases moved.inflight with same | ⟨mine, -⟩
    · rw [same]
      exact entry
    · obtain ⟨lead, -, also⟩ := (inv.callers id a found).registered mine
      exact absurd (inv.leaders k id c a other found leader lead (Option.some.inj (entry.symm.trans also))) differs
  · intro holds
    have held := own.holder holds
    by_cases meet : c.cell = a.cell
    · rw [meet] at held ⊢
      rcases moved.holder with same | free | mine
      · rw [same]
        exact held
      · rw [free] at held
        cases held
      · have also := (inv.callers id a found).holder mine
        exact absurd (Option.some.inj (held.symm.trans also)) differs
    · rw [moved.cells _ meet]
      exact held
  · intro j member
    rw [moved.cellOf found]
    exact own.before j member
  · exact fun v done => moved.completed (own.completed v done)
  · intro j v done
    rw [moved.cellOf found]
    exact ⟨moved.completed (own.returned j v done).1, (own.returned j v done).2⟩

/-- A step of one caller keeps the invariant if its own part does. -/
theorem Inv.moved (inv : Inv w) (found : w.callers[id]? = some a) (moved : Moved w x id a b)
    (own : CallerInv x id b) : Inv x := by
  have split : ∀ {k c}, x.callers[k]? = some c → k = id ∧ c = b ∨ k ≠ id ∧ w.callers[k]? = some c := by
    intro k c here
    rw [moved.callers] at here
    exact callers_put here
  refine ⟨?_, ?_, ?_, ?_, ?_⟩
  · intro k c here
    rcases split here with ⟨rfl, rfl⟩ | ⟨differs, here⟩
    · exact own
    · exact moved.other inv found differs here
  · have back : ∀ {k : Nat} {c : Caller V}, x.callers[k]? = some c →
        ∃ d : Caller V, w.callers[k]? = some d ∧ d.leader = c.leader ∧ d.cell = c.cell := by
      intro k c here
      rcases split here with ⟨rfl, rfl⟩ | ⟨-, here⟩
      · exact ⟨a, found, moved.leader.symm, moved.cell.symm⟩
      · exact ⟨c, here, rfl, rfl⟩
    intro k j c d left right leads also meet
    obtain ⟨e, left, leader, cell⟩ := back left
    obtain ⟨f, right, leader', cell'⟩ := back right
    have together : e.cell = f.cell := cell.trans (meet.trans cell'.symm)
    exact inv.leaders k j e f left right (leader.trans leads) (leader'.trans also) together
  · intro cell held
    have old : w.inflight = some cell := by
      by_contra gone
      exact moved.not_entry gone held
    obtain ⟨k, c, here, same, registered⟩ := inv.entry cell old
    by_cases mine : k = id
    · subst mine
      cases Option.some.inj (found.symm.trans here)
      refine ⟨k, b, ?_, moved.cell.trans same, moved.entry (same ▸ held) registered⟩
      rw [moved.callers]
      exact put_self found
    · refine ⟨k, c, ?_, same, registered⟩
      rw [moved.callers]
      exact put_other here mine
  · intro k v member
    rcases moved.fresh k v member with old | ⟨rfl, gone⟩
    · obtain ⟨cell, uses, bound, gone⟩ := inv.completed k v old
      refine ⟨cell, (moved.cellOf found k).trans uses, ?_, moved.not_entry gone⟩
      rw [moved.next]
      exact bound
    · refine ⟨a.cell, (moved.cellOf found k).trans (cellOf_caller found), ?_, gone⟩
      rw [moved.next]
      exact (inv.callers k a found).bound
  · intro cell k v held
    rw [moved.cellOf found]
    by_cases mine : cell = a.cell
    · subst mine
      rcases moved.values k v held with old | ⟨rfl, done⟩
      · exact ⟨moved.completed (inv.values _ k v old).1, (inv.values _ k v old).2⟩
      · exact ⟨done, cellOf_caller found⟩
    · rw [moved.cells _ mine] at held
      exact ⟨moved.completed (inv.values _ k v held).1, (inv.values _ k v held).2⟩

/-- A release removes the entry of a registered caller and changes nothing else. -/
theorem release_cases (own : CallerInv w id a) :
    a.registered = false ∧ w.release a = w ∨
      a.registered = true ∧ w.release a = { w with inflight := none } := by
  unfold Flight.release
  cases registered : a.registered with
  | false => exact Or.inl ⟨rfl, rfl⟩
  | true =>
    obtain ⟨-, -, entry⟩ := own.registered registered
    refine Or.inr ⟨rfl, ?_⟩
    rw [if_pos rfl, entry, Option.filter_some, if_neg (by simp)]

/-- The entry of a cell has left the map once a caller with its initialiser has released. -/
theorem Inv.released_entry (inv : Inv w) (found : w.callers[id]? = some a) (holds : a.phase.holds = true) :
    (w.release a).inflight ≠ some a.cell := by
  have own := inv.callers id a found
  rcases release_cases own with ⟨unregistered, same⟩ | ⟨-, empty⟩
  · rw [same]
    cases leads : a.leader with
    | false => exact own.joined holds leads
    | true =>
      intro entry
      obtain ⟨k, c, here, cell, registered⟩ := inv.entry _ entry
      have lead := ((inv.callers k c here).registered registered).1
      cases inv.leaders k id c a here found lead leads cell
      cases Option.some.inj (found.symm.trans here)
      cases unregistered.symm.trans registered
  · rw [empty]
    exact nofun

/-- A release by a caller that keeps its place: the fields that every such step has in common. -/
theorem Inv.releasing (phase : Phase V) {completed : List (Nat × V)} (inv : Inv w)
    (found : w.callers[id]? = some a) (more : w.completed ⊆ completed)
    (fresh : ∀ k v, (k, v) ∈ completed → (k, v) ∈ w.completed ∨ k = id ∧ (w.release a).inflight ≠ some a.cell) :
    Moved w { (w.release a).put id { a with phase := phase, registered := false } with completed := completed } id a
      { a with phase := phase, registered := false } := by
  rcases release_cases (inv.callers id a found) with ⟨unregistered, same⟩ | ⟨registered, empty⟩
  · rw [same] at fresh ⊢
    refine ⟨rfl, rfl, rfl, rfl, rfl, Or.inl rfl, nofun, fun _ held => ?_, fun _ _ => rfl, Or.inl rfl, more, fresh,
      fun _ _ held => Or.inl held⟩
    cases unregistered.symm.trans held
  · rw [empty] at fresh ⊢
    exact ⟨rfl, rfl, rfl, rfl, rfl, Or.inr ⟨registered, rfl⟩, nofun, nofun, fun _ _ => rfl, Or.inl rfl, more, fresh,
      fun _ _ held => Or.inl held⟩

/-- The invariant of the caller that moved, from what its step decides. -/
theorem Moved.own (moved : Moved w x id a b) (inv : Inv w) (found : w.callers[id]? = some a)
    (registered : b.registered = true → b.phase.early = true ∧ x.inflight = w.inflight)
    (holder : b.phase.holds = true → (x.cells a.cell).holder = some id)
    (joined : b.phase.holds = true → a.leader = false → w.inflight ≠ some a.cell)
    (completed : ∀ v, b.phase = .completed v → (id, v) ∈ x.completed)
    (returned : ∀ k v, b.phase = .returned (some (k, v)) → (k, v) ∈ x.completed ∧ w.cellOf k = some a.cell) :
    CallerInv x id b := by
  have own := inv.callers id a found
  refine ⟨?_, ?_, ?_, ?_, ?_, completed, ?_⟩
  · rw [moved.next, moved.cell]
    exact own.bound
  · intro still
    obtain ⟨leads, -, entry⟩ := own.registered (moved.registered still)
    obtain ⟨going, same⟩ := registered still
    rw [moved.leader, moved.cell, same]
    exact ⟨leads, going, entry⟩
  · rw [moved.cell]
    exact holder
  · intro holds joiner
    rw [moved.cell]
    rw [moved.leader] at joiner
    exact moved.not_entry (joined holds joiner)
  · rw [moved.before, moved.cell]
    intro k member
    rw [moved.cellOf found]
    exact own.before k member
  · intro k v done
    rw [moved.cellOf found, moved.cell]
    exact returned k v done

theorem setCell_self {cell : Nat} {c : Cell V} : (w.setCell cell c).cells cell = c := if_pos rfl

theorem setCell_other {cell k : Nat} {c : Cell V} (differs : k ≠ cell) : (w.setCell cell c).cells k = w.cells k :=
  if_neg differs

/-- A step that changes the cell of the caller but not the map. -/
theorem Inv.celling (phase : Phase V) {c : Cell V} (inv : Inv w) (found : w.callers[id]? = some a)
    (holder : c.holder = (w.cells a.cell).holder ∨ (w.cells a.cell).holder = none ∨ a.phase.holds = true)
    (values : ∀ k v, c.value = some (k, v) → (w.cells a.cell).value = some (k, v) ∨ k = id ∧ (k, v) ∈ w.completed)
    (going : a.registered = true → phase.early = true)
    (held : phase.holds = true → c.holder = some id)
    (joined : phase.holds = true → a.leader = false → w.inflight ≠ some a.cell)
    (completed : ∀ v, phase = .completed v → (id, v) ∈ w.completed)
    (returned : ∀ k v, phase = .returned (some (k, v)) → (k, v) ∈ w.completed ∧ w.cellOf k = some a.cell) :
    Inv (w.setCell a.cell c |>.put id { a with phase := phase }) := by
  have moved : Moved w (w.setCell a.cell c |>.put id { a with phase := phase }) id a { a with phase := phase } := by
    refine ⟨rfl, rfl, rfl, rfl, rfl, Or.inl rfl, fun still => still, fun _ still => still,
      fun k differs => setCell_other differs, ?_, List.Subset.refl _, fun _ _ member => Or.inl member, ?_⟩
    · change ((w.setCell a.cell c).cells a.cell).holder = _ ∨ _
      rw [setCell_self]
      exact holder
    · change ∀ k v, ((w.setCell a.cell c).cells a.cell).value = _ → _
      rw [setCell_self]
      exact values
  refine inv.moved found moved (moved.own inv found (fun still => ⟨going still, rfl⟩) ?_ joined completed returned)
  change _ → ((w.setCell a.cell c).cells a.cell).holder = some id
  rw [setCell_self]
  exact held

theorem release_cells : (w.release a).cells = w.cells := by
  unfold Flight.release
  split_ifs <;> rfl

theorem release_completed : (w.release a).completed = w.completed := by
  unfold Flight.release
  split_ifs <;> rfl

/-- A caller that ends or is dropped outside its fetch, or returns what another one published. -/
theorem Inv.released (phase : Phase V) (inv : Inv w) (found : w.callers[id]? = some a)
    (holds : phase.holds = true → a.phase.holds = true)
    (completed : ∀ v, phase = .completed v → (id, v) ∈ w.completed)
    (returned : ∀ k v, phase = .returned (some (k, v)) → (k, v) ∈ w.completed ∧ w.cellOf k = some a.cell) :
    Inv ((w.release a).put id { a with phase := phase, registered := false }) := by
  have own := inv.callers id a found
  have moved : Moved w ((w.release a).put id { a with phase := phase, registered := false }) id a
      { a with phase := phase, registered := false } := by
    have more : w.completed ⊆ (w.release a).completed := by
      rw [release_completed]
      exact List.Subset.refl _
    refine inv.releasing phase found more fun k v member => Or.inl ?_
    rw [release_completed] at member
    exact member
  have joined : phase.holds = true → a.leader = false → w.inflight ≠ some a.cell := fun held => own.joined (holds held)
  refine inv.moved found moved (moved.own inv found nofun (fun held => ?_) joined ?_ ?_)
  · change ((w.release a).cells a.cell).holder = some id
    rw [release_cells]
    exact own.holder (holds held)
  · change ∀ v, phase = .completed v → (id, v) ∈ (w.release a).completed
    rw [release_completed]
    exact completed
  · change ∀ k v, phase = .returned (some (k, v)) → (k, v) ∈ (w.release a).completed ∧ _
    rw [release_completed]
    exact returned

theorem put_unregistered (phase : Phase V) (plain : a.registered = false) :
    w.put id { a with phase := phase } = (w.release a).put id { a with phase := phase, registered := false } := by
  obtain ⟨cell, leader, registered, now, before⟩ := a
  cases plain
  rfl

theorem CallerInv.unregistered (own : CallerInv w id a) (past : a.phase.early = false) : a.registered = false := by
  refine Bool.eq_false_iff.mpr fun registered => ?_
  cases past.symm.trans (own.registered registered).2.1

/-- A fetch completes; the entry of its cell has left the map by then. -/
theorem Inv.complete (value : V) (inv : Inv w) (found : w.callers[id]? = some a) (now : a.phase = .running) :
    Inv { (w.release a).put id { a with phase := .completed value, registered := false } with
      completed := (id, value) :: w.completed } := by
  have own := inv.callers id a found
  have holds : a.phase.holds = true := by
    rw [now]
    rfl
  have gone := inv.released_entry found holds
  have moved := inv.releasing (.completed value) found (List.subset_cons_self (id, value) w.completed)
    fun k v member => by
      rcases List.mem_cons.mp member with same | old
      · exact Or.inr ⟨(Prod.mk.inj same).1, gone⟩
      · exact Or.inl old
  refine inv.moved found moved (moved.own inv found nofun (fun _ => ?_) (fun _ => own.joined holds) ?_ nofun)
  · change ((w.release a).cells a.cell).holder = some id
    rw [release_cells]
    exact own.holder holds
  · rintro v ⟨⟩
    exact List.mem_cons_self

theorem Inv.publish {value : V} (inv : Inv w) (found : w.callers[id]? = some a) (now : a.phase = .completed value) :
    Inv (w.setCell a.cell { value := some (id, value) } |>.put id
      { a with phase := .returned (some (id, value)) }) := by
  have own := inv.callers id a found
  have done := own.completed value now
  have unregistered := own.unregistered (by rw [now]; rfl)
  refine inv.celling (.returned (some (id, value))) found (Or.inr (Or.inr ?_)) ?_ (fun registered => ?_) nofun nofun
    nofun ?_
  · rw [now]
    rfl
  · rintro k v ⟨⟩
    exact Or.inr ⟨rfl, done⟩
  · cases unregistered.symm.trans registered
  · rintro k v ⟨⟩
    exact ⟨done, cellOf_caller found⟩

theorem act_inv {l : Label V} (inv : Inv w) (found : w.callers[id]? = some a) (mine : l.caller = some id)
    (permitted : allowed w l) (taken : act w a l = some x) : Inv x := by
  have own := inv.callers id a found
  cases l with
  | arrive => cases mine
  | acquire k =>
    cases mine
    simp only [act] at taken
    split at taken
    · rename_i now free
      cases taken
      refine inv.celling .running found (Or.inr (Or.inl ?_)) nofun (fun _ => rfl) (fun _ => rfl) ?_ nofun nofun
      · rw [free]
      · exact fun _ => permitted a found
    · cases taken
  | complete k value =>
    cases mine
    simp only [act] at taken
    split at taken
    · rename_i now
      cases taken
      exact inv.complete value found now
    · cases taken
  | publish k =>
    cases mine
    simp only [act] at taken
    split at taken
    · rename_i value now
      cases taken
      exact inv.publish found now
    · cases taken
  | wake k =>
    cases mine
    simp only [act] at taken
    split at taken
    · rename_i now value
      cases taken
      refine inv.released (.returned (some _)) found nofun nofun ?_
      rintro k v ⟨⟩
      exact inv.values _ k v value
    · cases taken
  | expire k =>
    cases mine
    simp only [act] at taken
    split_ifs at taken with leads
    have joiner : a.registered = false := Bool.eq_false_iff.mpr fun registered => leads (own.registered registered).1
    split at taken
    · cases taken
      rw [put_unregistered _ joiner]
      exact inv.released (.returned none) found nofun nofun nofun
    · rename_i now
      cases taken
      rw [put_unregistered _ joiner]
      refine inv.released (.dropping true) found (fun _ => ?_) nofun nofun
      rw [now]
      rfl
    · cases taken
  | cancel k =>
    cases mine
    simp only [act] at taken
    split at taken
    · cases taken
      exact inv.released .dropped found nofun nofun nofun
    · rename_i now
      cases taken
      refine inv.released (.dropping false) found (fun _ => ?_) nofun nofun
      rw [now]
      rfl
    · cases taken
  | drop k =>
    cases mine
    simp only [act] at taken
    split at taken
    · rename_i expired now
      cases taken
      have unregistered := own.unregistered (by rw [now]; rfl)
      refine inv.celling _ found (Or.inr (Or.inr ?_)) (fun _ _ held => Or.inl held) (fun registered => ?_) ?_ ?_ ?_ ?_
      · rw [now]
        rfl
      · cases unregistered.symm.trans registered
      all_goals cases expired <;> nofun
    · cases taken

theorem ended_of_early {phase : Phase V} (early : phase.early = true) : phase.ended = false := by
  cases phase with
  | waiting => rfl
  | running => rfl
  | _ => cases early

theorem getElem?_snoc {k : Nat} {c : Caller V} (found : (w.callers ++ [a])[k]? = some c) :
    w.callers[k]? = some c ∨ k = w.callers.length ∧ c = a := by
  rw [List.getElem?_append] at found
  split_ifs at found with inside
  · exact Or.inl found
  · refine Or.inr ?_
    obtain ⟨bound, same⟩ := List.getElem?_eq_some_iff.mp found
    rw [List.length_singleton] at bound
    refine ⟨by omega, ?_⟩
    rw [List.getElem_singleton] at same
    exact same.symm

theorem callers_snoc {k : Nat} {c : Caller V} (callers : x.callers = w.callers ++ [a])
    (found : w.callers[k]? = some c) : x.callers[k]? = some c := by
  obtain ⟨inside, -⟩ := List.getElem?_eq_some_iff.mp found
  rw [callers, List.getElem?_append_left inside]
  exact found

theorem cellOf_snoc {k cell : Nat} (callers : x.callers = w.callers ++ [a]) (uses : w.cellOf k = some cell) :
    x.cellOf k = some cell := by
  obtain ⟨c, found, same⟩ := Option.map_eq_some_iff.mp uses
  rw [cellOf_caller (callers_snoc callers found), same]

/-- What an arrival leaves as it is for the callers that are there already. -/
theorem CallerInv.arrived {c : Caller V} {k : Nat} (own : CallerInv w k c) (callers : x.callers = w.callers ++ [a])
    (next : w.next ≤ x.next) (cells : x.cells = w.cells) (completed : x.completed = w.completed)
    (inflight : ∀ cell < w.next, x.inflight = some cell ↔ w.inflight = some cell) : CallerInv x k c := by
  refine ⟨Nat.lt_of_lt_of_le own.bound next, ?_, ?_, ?_, ?_, ?_, ?_⟩
  · intro registered
    obtain ⟨leads, early, entry⟩ := own.registered registered
    exact ⟨leads, early, (inflight _ own.bound).mpr entry⟩
  · rw [cells]
    exact own.holder
  · intro holds joiner entry
    exact own.joined holds joiner ((inflight _ own.bound).mp entry)
  · intro j member
    obtain ⟨cell, known, differs⟩ := own.before j member
    exact ⟨cell, cellOf_snoc callers known, differs⟩
  · rw [completed]
    exact own.completed
  · rw [completed]
    intro j v done
    obtain ⟨member, uses⟩ := own.returned j v done
    exact ⟨member, cellOf_snoc callers uses⟩

theorem Inv.arrived (inv : Inv w) (callers : x.callers = w.callers ++ [a]) (next : w.next ≤ x.next)
    (cells : x.cells = w.cells) (completed : x.completed = w.completed)
    (inflight : ∀ cell < w.next, x.inflight = some cell ↔ w.inflight = some cell)
    (own : CallerInv x w.callers.length a) (lone : a.leader = true → w.next ≤ a.cell)
    (entry : ∀ cell, x.inflight = some cell → w.inflight = some cell ∨ a.cell = cell ∧ a.registered = true) :
    Inv x := by
  have split : ∀ {k : Nat} {c : Caller V}, x.callers[k]? = some c →
      w.callers[k]? = some c ∨ k = w.callers.length ∧ c = a := by
    intro k c here
    rw [callers] at here
    exact getElem?_snoc here
  refine ⟨?_, ?_, ?_, ?_, ?_⟩
  · intro k c here
    rcases split here with here | ⟨rfl, rfl⟩
    · exact (inv.callers k c here).arrived callers next cells completed inflight
    · exact own
  · intro k j c d left right leads also meet
    rcases split left with left | ⟨rfl, rfl⟩ <;> rcases split right with right | ⟨rfl, rfl⟩
    · exact inv.leaders k j c d left right leads also meet
    · have below := (inv.callers k c left).bound
      have above := lone also
      omega
    · have below := (inv.callers j d right).bound
      have above := lone leads
      omega
    · rfl
  · intro cell held
    rcases entry cell held with here | ⟨same, registered⟩
    · obtain ⟨k, c, found, uses, registered⟩ := inv.entry cell here
      exact ⟨k, c, callers_snoc callers found, uses, registered⟩
    · refine ⟨w.callers.length, a, ?_, same, registered⟩
      rw [callers, List.getElem?_append_right (Nat.le_refl _), Nat.sub_self]
      rfl
  · intro k v member
    rw [completed] at member
    obtain ⟨cell, known, bound, gone⟩ := inv.completed k v member
    refine ⟨cell, cellOf_snoc callers known, Nat.lt_of_lt_of_le bound next, fun entry => ?_⟩
    exact gone ((inflight cell bound).mp entry)
  · intro cell k v held
    rw [cells] at held
    rw [completed]
    obtain ⟨member, uses⟩ := inv.values cell k v held
    exact ⟨member, cellOf_snoc callers uses⟩

/-- A new caller finds no complete fetch on the cell it uses. -/
theorem Inv.arrive (inv : Inv w) : Inv w.arrive := by
  have known : ∀ k ∈ w.completed.map (·.1),
      ∃ cell, w.cellOf k = some cell ∧ cell < w.next ∧ w.inflight ≠ some cell := by
    intro k member
    obtain ⟨⟨j, v⟩, here, rfl⟩ := List.mem_map.mp member
    exact inv.completed j v here
  unfold Flight.arrive
  cases entry : w.inflight with
  | some cell =>
    obtain ⟨k, c, found, same, -⟩ := inv.entry cell entry
    have bound := (inv.callers k c found).bound
    refine inv.arrived rfl (Nat.le_refl _) rfl rfl (fun other _ => ?_) ?_ nofun ?_
    · rw [entry]
    · refine ⟨same ▸ bound, nofun, nofun, nofun, fun j member => ?_, nofun, nofun⟩
      obtain ⟨other, uses, -, gone⟩ := known j member
      refine ⟨other, cellOf_snoc rfl uses, fun meet => ?_⟩
      cases meet
      exact gone entry
    · exact fun _ held => Or.inl (entry.trans held)
  | none =>
    refine inv.arrived rfl (Nat.le_succ _) rfl rfl (fun cell below => ?_) ?_ (fun _ => Nat.le_refl _) ?_
    · rw [entry]
      refine ⟨fun held => ?_, nofun⟩
      cases held
      exact absurd below (Nat.lt_irrefl _)
    · refine ⟨Nat.lt_succ_self _, fun _ => ⟨rfl, rfl, rfl⟩, nofun, nofun, fun j member => ?_, nofun, nofun⟩
      obtain ⟨other, uses, below, -⟩ := known j member
      exact ⟨other, cellOf_snoc rfl uses, Nat.ne_of_lt below⟩
    · rintro cell ⟨⟩
      exact Or.inr ⟨rfl, rfl⟩

theorem step_inv {l : Label V} (inv : Inv w) (permitted : allowed w l) (taken : step w l = some x) : Inv x := by
  unfold step at taken
  split at taken
  · cases taken
    exact inv.arrive
  · rename_i mine
    obtain ⟨a, found, acted⟩ := Option.bind_eq_some_iff.mp taken
    exact act_inv inv found mine permitted acted

/-- Only a release changes the entry of the map. -/
theorem act_inflight {l : Label V} (own : CallerInv w id a) (taken : act w a l = some x) :
    x.inflight = w.inflight ∨ a.registered = true ∧ x.inflight = none := by
  have released : (w.release a).inflight = w.inflight ∨ a.registered = true ∧ (w.release a).inflight = none := by
    rcases release_cases own with ⟨-, same⟩ | ⟨registered, empty⟩
    · exact Or.inl (by rw [same])
    · exact Or.inr ⟨registered, by rw [empty]⟩
  cases l with
  | arrive => cases taken
  | acquire k =>
    simp only [act] at taken
    split at taken <;> cases taken
    exact Or.inl rfl
  | complete k value =>
    simp only [act] at taken
    split at taken <;> cases taken
    exact released
  | publish k =>
    simp only [act] at taken
    split at taken <;> cases taken
    exact Or.inl rfl
  | wake k =>
    simp only [act] at taken
    split at taken <;> cases taken
    exact released
  | expire k =>
    simp only [act] at taken
    split_ifs at taken
    split at taken <;> cases taken
    · exact Or.inl rfl
    · exact Or.inl rfl
  | cancel k =>
    simp only [act] at taken
    split at taken <;> cases taken
    · exact released
    · exact released
  | drop k =>
    simp only [act] at taken
    split at taken <;> cases taken
    exact Or.inl rfl

/-- In every run in which no joiner takes the initialiser of a cell that is still in the map: one
fetch runs at a time for one cell; a returned outcome belongs to a fetch that completed after the
caller arrived; only the leader of a cell removes its entry; and the map is empty in the end. -/
theorem flight_shared {w : Flight V} (reach : Run.Reach step allowed {} w) :
    (∀ (i j : Nat) (a b : Caller V), w.callers[i]? = some a → w.callers[j]? = some b → a.phase = .running →
      b.phase = .running → a.cell = b.cell → i = j) ∧
    (∀ (i : Nat) (a : Caller V) k v, w.callers[i]? = some a → a.phase = .returned (some (k, v)) →
      (k, v) ∈ w.completed ∧ k ∉ a.before) ∧
    (∀ l x cell, step w l = some x → w.inflight = some cell → x.inflight ≠ some cell →
      x.inflight = none ∧ ∃ (i : Nat) (a : Caller V), l.caller = some i ∧ w.callers[i]? = some a ∧
        a.registered = true ∧ a.cell = cell) ∧
    ((∀ a ∈ w.callers, a.phase.ended = true) → w.inflight = none) := by
  have inv : Inv w := by
    refine reach.invariant ⟨nofun, nofun, nofun, ?_, nofun⟩ ?_
    · exact fun k v member => absurd member List.not_mem_nil
    · exact fun _ _ _ inv permitted taken => step_inv inv permitted taken
  refine ⟨fun i j a b left right one two meet => ?_, fun i a k v found done => ?_, fun l x cell taken held gone => ?_,
    fun all => ?_⟩
  · have first := (inv.callers i a left).holder (by rw [one]; rfl)
    have second := (inv.callers j b right).holder (by rw [two]; rfl)
    rw [meet] at first
    exact Option.some.inj (first.symm.trans second)
  · have own := inv.callers i a found
    obtain ⟨member, uses⟩ := own.returned k v done
    refine ⟨member, fun early => ?_⟩
    obtain ⟨cell, known, differs⟩ := own.before k early
    exact differs (Option.some.inj (known.symm.trans uses))
  · unfold step at taken
    split at taken
    · cases taken
      refine absurd ?_ gone
      unfold Flight.arrive
      rw [held]
    · rename_i i mine
      obtain ⟨a, found, acted⟩ := Option.bind_eq_some_iff.mp taken
      have own := inv.callers i a found
      rcases act_inflight own acted with same | ⟨registered, empty⟩
      · exact absurd (same.trans held) gone
      · refine ⟨empty, i, a, mine, found, registered, ?_⟩
        exact Option.some.inj ((own.registered registered).2.2.symm.trans held)
  · refine Option.eq_none_iff_forall_ne_some.mpr fun cell held => ?_
    obtain ⟨k, c, found, -, registered⟩ := inv.entry cell held
    have early := ((inv.callers k c found).registered registered).2.1
    have ended := all c (List.mem_of_getElem? found)
    cases (ended_of_early early).symm.trans ended

/-- The joiner takes the initialiser before the leader, and a third caller arrives after its fetch is
complete but before the leader wakes up. -/
def overtakenLeader : List (Label Nat) :=
  [.arrive, .arrive, .acquire 1, .complete 1 7, .publish 1, .arrive, .wake 2]

theorem complete_outcome_shared :
    ∃ (w : Flight Nat) (a : Caller Nat) (k v : Nat), Run.Reach step (fun _ _ => True) {} w ∧
      w.callers[2]? = some a ∧ a.phase = .returned (some (k, v)) ∧ k ∈ a.before := by
  have run : Run.exec step ({} : Flight Nat) overtakenLeader = some _ := rfl
  refine ⟨_, _, 1, 7, Run.reach_of_exec run, rfl, rfl, ?_⟩
  exact List.mem_singleton_self _

/-- A leader and a joiner that receives its outcome. -/
theorem flight_shared_joined :
    ∃ (w : Flight Nat) (a : Caller Nat), Run.Reach step allowed {} w ∧ w.callers[1]? = some a ∧
      a.phase = .returned (some (0, 7)) ∧ 0 ∉ a.before ∧ w.inflight = none := by
  have reach : Run.Reach step allowed ({} : Flight Nat) _ :=
    .next (l := Label.wake 1)
      (.next (l := Label.publish 0)
        (.next (l := Label.complete 0 7)
          (.next (l := Label.acquire 0)
            (.next (l := Label.arrive) (.next (l := Label.arrive) .start trivial rfl) trivial rfl)
            (by
              rintro a ⟨⟩ joiner
              cases joiner)
            rfl)
          trivial rfl)
        trivial rfl)
      trivial rfl
  obtain ⟨-, returned, -, empty⟩ := flight_shared reach
  refine ⟨_, _, reach, rfl, rfl, (returned 1 _ 0 7 rfl rfl).2, empty fun a member => ?_⟩
  rcases List.mem_cons.mp member with rfl | member
  · rfl
  · cases List.mem_singleton.mp member
    rfl

end SiriusProxy.SingleFlight
