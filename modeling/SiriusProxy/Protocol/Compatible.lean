import SiriusProxy.Lib.Worklist
import SiriusProxy.Protocol.Extends

open SiriusProxy.Routing

namespace SiriusProxy.Protocol

section Visit
variable (old new : Pool)

def sameShape (x : old.FieldOf) (y : new.FieldOf) : Bool :=
  decide (x.name = y.name) && decide (x.jsonName = y.jsonName) && decide (x.cardinality = y.cardinality) &&
    old.isMap x == new.isMap y && x.isPacked == y.isPacked && x.supportsPresence == y.supportsPresence &&
    x.proto3Optional == y.proto3Optional && decide (x.containingOneof = y.containingOneof) &&
    decide (x.defaultValue = y.defaultValue)

def sameValues (m n : EnumType) : Bool :=
  decide (m.defaultValue.number = n.defaultValue.number) && decide (m.defaultValue.name = n.defaultValue.name) &&
    m.values.all fun value =>
      decide ((n.getValueByName value.name).map (·.number) = some value.number) &&
        decide ((n.getValue value.number).map (·.name) = (m.getValue value.number).map (·.name))

/-- Compares two fields; a message type found in the old one is pushed. Descriptors of two pools are
never equal, so other kinds have to be the same scalar. -/
def visitField (x : old.FieldOf) (y : new.FieldOf) (pushed : List old.Index) : Except AppError (List old.Index) := do
  ensure (sameShape old new x y)
  match x.kind, y.kind with
  | .message m, .message n =>
    if (old.messages m).fullName = (new.messages n).fullName then .ok (m :: pushed) else invalid
  | .enum m, .enum n =>
    if (old.enums m).fullName = (new.enums n).fullName then do
      ensure (sameValues (old.enums m) (new.enums n))
      .ok pushed
    else invalid
  | .scalar s, .scalar t => if s = t then .ok pushed else invalid
  | _, _ => invalid

def visitFields (b : new.Index) : List old.FieldOf → List old.Index → Except AppError (List old.Index)
  | [], pushed => .ok pushed
  | x :: rest, pushed => do
    let y ← orInvalid ((new.messages b).getField x.number)
    let pushed ← visitField old new x y pushed
    visitFields b rest pushed

def addsRequired (a : old.Index) (b : new.Index) : Bool :=
  (new.messages b).fields.any fun added =>
    decide (added.cardinality = .required) && ((old.messages a).getField added.number).isNone

def visit (a : old.Index) : Except AppError (List old.Index) := do
  let b ← orInvalid (new.getMessageByName (old.messages a).fullName)
  ensure ((old.messages a).isMapEntry == (new.messages b).isMapEntry)
  ensure (!addsRequired old new a b)
  visitFields old new b (old.messages a).fields []

def sameMethod (a : old.MethodOf) (b : new.MethodOf) : Bool :=
  decide ((old.messages a.input).fullName = (new.messages b.input).fullName) &&
    decide ((old.messages a.output).fullName = (new.messages b.output).fullName) &&
    decide (a.options = b.options) && !b.isClientStreaming && !b.isServerStreaming

/-- The types of the exposed RPCs, the last one on top. -/
def exposed : List Route → List old.Index → Except AppError (List old.Index)
  | [], pending => .ok pending
  | route :: rest, pending => do
    let a ← method old route
    let b ← method new route
    ensure (sameMethod old new a b)
    exposed rest (a.output :: a.input :: pending)

def inferredFamily : Family := if (method old .serverList).isOk then .global else .jp

def fieldCount (a : old.Index) : Nat := (old.messages a).fields.length

/-- The loop over the pending types, with rounds for every pending type and every field of the old pool. -/
def compareTypes (pending : List old.Index) : Option (Except AppError Unit) :=
  Worklist.drain (fun a => (old.messages a).fullName) (visit old new)
    (pending.length + ((List.finRange old.messageCount).map (fieldCount old)).sum) pending []

end Visit

variable {old new : Pool}

/-- The message types among the kinds of fields. -/
def messageKinds (fields : List old.FieldOf) : List old.Index :=
  fields.filterMap fun x => match x.kind with
    | .message m => some m
    | _ => none

theorem sameValues_kept {m n : EnumType} (name : m.fullName = n.fullName) (same : sameValues m n = true) :
    EnumKept m n := by
  simp only [sameValues, Bool.and_eq_true, decide_eq_true_eq, List.all_eq_true] at same
  obtain ⟨⟨number, text⟩, values⟩ := same
  refine ⟨name, ?_, fun v member => (values v member).1, fun v member => (values v member).2⟩
  cases left : m.defaultValue
  cases right : n.defaultValue
  rw [left, right] at number text
  cases number
  cases text
  rfl

theorem sameShape_kept {x : old.FieldOf} {y : new.FieldOf} (same : sameShape old new x y = true)
    (kind : KindKept old new x.kind y.kind) : FieldKept old new x y := by
  simp only [sameShape, Bool.and_eq_true, decide_eq_true_eq, beq_iff_eq] at same
  obtain ⟨⟨⟨⟨⟨⟨⟨⟨name, jsonName⟩, cardinality⟩, map⟩, packing⟩, presence⟩, proto3⟩, oneof⟩, default⟩ := same
  exact ⟨name, jsonName, kind, cardinality, map, packing, presence, proto3, oneof, default⟩

/-- A comparison that passes keeps the field, and pushes its message type. -/
theorem visitField_ok {x : old.FieldOf} {y : new.FieldOf} {pushed after : List old.Index}
    (ok : visitField old new x y pushed = .ok after) :
    FieldKept old new x y ∧ after = messageKinds [x] ++ pushed := by
  obtain ⟨⟨⟩, shape, ok⟩ := bind_ok ok
  have shape := ensure_ok shape
  cases left : x.kind with
  | scalar s =>
    cases right : y.kind with
    | scalar t =>
      simp only [left, right] at ok
      split at ok
      · rename_i same
        cases ok
        subst same
        refine ⟨sameShape_kept shape ?_, ?_⟩
        · rw [left, right]
          exact .scalar s
        · simp only [messageKinds, List.filterMap_cons, left, List.filterMap_nil, List.nil_append]
      · cases ok
    | message n =>
      simp only [left, right] at ok
      cases ok
    | enum n =>
      simp only [left, right] at ok
      cases ok
  | message m =>
    cases right : y.kind with
    | message n =>
      simp only [left, right] at ok
      split at ok
      · rename_i same
        cases ok
        refine ⟨sameShape_kept shape ?_, ?_⟩
        · rw [left, right]
          exact .message m n same
        · simp only [messageKinds, List.filterMap_cons, left, List.filterMap_nil, List.cons_append, List.nil_append]
      · cases ok
    | scalar t =>
      simp only [left, right] at ok
      cases ok
    | enum n =>
      simp only [left, right] at ok
      cases ok
  | enum m =>
    cases right : y.kind with
    | enum n =>
      simp only [left, right] at ok
      split at ok
      · rename_i same
        obtain ⟨⟨⟩, values, ok⟩ := bind_ok ok
        cases ok
        refine ⟨sameShape_kept shape ?_, ?_⟩
        · rw [left, right]
          exact .enum m n (sameValues_kept same (ensure_ok values))
        · simp only [messageKinds, List.filterMap_cons, left, List.filterMap_nil, List.nil_append]
      · cases ok
    | scalar t =>
      simp only [left, right] at ok
      cases ok
    | message n =>
      simp only [left, right] at ok
      cases ok

theorem visitFields_ok {b : new.Index} {fields : List old.FieldOf} {pushed after : List old.Index}
    (ok : visitFields old new b fields pushed = .ok after) :
    (∀ x ∈ fields, ∃ y, (new.messages b).getField x.number = some y ∧ FieldKept old new x y) ∧
      after = (messageKinds fields).reverse ++ pushed := by
  induction fields generalizing pushed with
  | nil =>
    cases ok
    exact ⟨fun x none => absurd none List.not_mem_nil, rfl⟩
  | cons x rest ih =>
    obtain ⟨y, found, ok⟩ := bind_ok ok
    obtain ⟨middle, passed, ok⟩ := bind_ok ok
    obtain ⟨kept, first⟩ := visitField_ok passed
    obtain ⟨others, last⟩ := ih ok
    refine ⟨fun z member => ?_, ?_⟩
    · rcases List.mem_cons.mp member with rfl | later
      · exact ⟨y, orInvalid_ok found, kept⟩
      · exact others z later
    · have split : messageKinds (x :: rest) = messageKinds [x] ++ messageKinds rest := by
        rw [messageKinds, ← List.singleton_append, List.filterMap_append]
        rfl
      have single : (messageKinds [x]).reverse = messageKinds [x] := by
        cases kind : x.kind <;> simp only [messageKinds, List.filterMap_cons, kind, List.filterMap_nil,
          List.reverse_nil, List.reverse_singleton]
      rw [last, first, split, List.reverse_append, single, List.append_assoc]

/-- A visit that passes keeps the type and pushes every type its fields refer to. -/
theorem visit_ok {a : old.Index} {found : List old.Index} (ok : visit old new a = .ok found) :
    (∃ b, MessageKept old new a b) ∧ found = (messageKinds (old.messages a).fields).reverse := by
  obtain ⟨b, named, ok⟩ := bind_ok ok
  obtain ⟨⟨⟩, entry, ok⟩ := bind_ok ok
  obtain ⟨⟨⟩, added, ok⟩ := bind_ok ok
  obtain ⟨fields, pushed⟩ := visitFields_ok ok
  rw [List.append_nil] at pushed
  refine ⟨⟨b, (Pool.getMessageByName_eq (orInvalid_ok named)).symm, ?_, fields, ?_⟩, pushed⟩
  · have same := ensure_ok entry
    rwa [beq_iff_eq] at same
  · intro y member required
    have none := ensure_ok added
    rw [Bool.not_eq_true', addsRequired, List.any_eq_false] at none
    have present := none y member
    simp only [required, decide_true, Bool.true_and, Option.isNone_iff_eq_none] at present
    exact Option.isSome_iff_ne_none.mpr present

theorem finds_of_refers {a b : old.Index} {found : List old.Index} (passed : visit old new a = .ok found)
    (refers : Refers old a b) : Worklist.Finds (visit old new) a b := by
  obtain ⟨x, member, kind⟩ := refers
  refine ⟨found, passed, ?_⟩
  rw [(visit_ok passed).2, List.mem_reverse, messageKinds, List.mem_filterMap]
  exact ⟨x, member, by rw [kind]⟩

/-- The loop over the types never runs out of rounds. -/
theorem compareTypes_isSome (old new : Pool) (pending : List old.Index) : (compareTypes old new pending).isSome := by
  refine Worklist.drain_isSome (fieldCount old) List.mem_finRange (fun a found passed => ?_) (Nat.le_refl _)
  rw [(visit_ok passed).2, List.length_reverse]
  exact List.length_filterMap_le _ _

/-- Conservative additive compatibility for every type reachable from exposed RPCs. -/
def compatible (old new : Pool) : Except AppError Unit := do
  let pending ← exposed old new (contractForFamily (inferredFamily old)) []
  (compareTypes old new pending).get (compareTypes_isSome old new pending)

theorem exposed_ok {list : List Route} {pending after : List old.Index} (ok : exposed old new list pending = .ok after) :
    (∀ t ∈ pending, t ∈ after) ∧
      ∀ route ∈ list, ∃ a b, method old route = .ok a ∧ method new route = .ok b ∧ MethodKept old new a b ∧
        a.input ∈ after ∧ a.output ∈ after := by
  induction list generalizing pending with
  | nil =>
    cases ok
    exact ⟨fun t member => member, fun route none => absurd none List.not_mem_nil⟩
  | cons first rest ih =>
    obtain ⟨a, before, ok⟩ := bind_ok ok
    obtain ⟨b, later, ok⟩ := bind_ok ok
    obtain ⟨⟨⟩, same, ok⟩ := bind_ok ok
    obtain ⟨kept, others⟩ := ih ok
    refine ⟨fun t member => kept t (List.mem_cons_of_mem _ (List.mem_cons_of_mem _ member)), fun route member => ?_⟩
    rcases List.mem_cons.mp member with rfl | member
    · have same := ensure_ok same
      simp only [sameMethod, Bool.and_eq_true, decide_eq_true_eq, Bool.not_eq_true'] at same
      obtain ⟨⟨⟨⟨input, output⟩, options⟩, client⟩, server⟩ := same
      exact ⟨a, b, before, later, ⟨input, output, options, client, server⟩,
        kept _ (List.mem_cons_of_mem _ List.mem_cons_self), kept _ List.mem_cons_self⟩
    · exact others route member

/-- What the visits lead to covers what the types refer to, as long as the visits pass. -/
theorem compareTypes_ok {pending : List old.Index} (ok : compareTypes old new pending = some (.ok ()))
    {a t : old.Index} (start : a ∈ pending) (reach : Reaches old a t) : ∃ u, MessageKept old new t u := by
  have covered : Relation.ReflTransGen (Worklist.Finds (visit old new)) a t := by
    induction reach with
    | refl => exact .refl
    | tail _ refers ih =>
      obtain ⟨found, passed⟩ := Worklist.drain_ok old.distinct ok start ih
      exact ih.tail (finds_of_refers passed refers)
  obtain ⟨found, passed⟩ := Worklist.drain_ok old.distinct ok start covered
  exact (visit_ok passed).1

theorem compatible_extends (ok : compatible old new = .ok ()) :
    Extends (contractForFamily (inferredFamily old)) old new := by
  obtain ⟨pending, pushed, ok⟩ := bind_ok ok
  have compared : compareTypes old new pending = some (.ok ()) := by
    rw [← ok, Option.some_get]
  intro route member
  obtain ⟨a, b, before, later, kept, input, output⟩ := (exposed_ok pushed).2 route member
  refine ⟨a, b, before, later, kept, fun t reach => ?_⟩
  rcases reach with reach | reach
  · exact compareTypes_ok compared input reach
  · exact compareTypes_ok compared output reach

end SiriusProxy.Protocol
