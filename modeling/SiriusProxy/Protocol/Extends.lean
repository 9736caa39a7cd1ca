import SiriusProxy.Protocol.Contract
import Mathlib.Logic.Relation

open SiriusProxy.Routing

namespace SiriusProxy.Protocol

/-- Every value keeps its name and number, its number is read as the same name, and the default stays. -/
structure EnumKept (m n : EnumType) : Prop where
  name : m.fullName = n.fullName
  default : m.defaultValue = n.defaultValue
  value : ∀ v ∈ m.values, (n.getValueByName v.name).map (·.number) = some v.number
  reading : ∀ v ∈ m.values, (n.getValue v.number).map (·.name) = (m.getValue v.number).map (·.name)

inductive KindKept (old new : Pool) : Kind old.messageCount old.enumCount → Kind new.messageCount new.enumCount → Prop
  | scalar (s : Scalar) : KindKept old new (.scalar s) (.scalar s)
  | message (m : old.Index) (n : new.Index) : (old.messages m).fullName = (new.messages n).fullName →
      KindKept old new (.message m) (.message n)
  | enum (m : Fin old.enumCount) (n : Fin new.enumCount) : EnumKept (old.enums m) (new.enums n) →
      KindKept old new (.enum m) (.enum n)

structure FieldKept (old new : Pool) (x : old.FieldOf) (y : new.FieldOf) : Prop where
  name : x.name = y.name
  jsonName : x.jsonName = y.jsonName
  kind : KindKept old new x.kind y.kind
  cardinality : x.cardinality = y.cardinality
  map : old.isMap x = new.isMap y
  packing : x.isPacked = y.isPacked
  presence : x.supportsPresence = y.supportsPresence
  proto3Optional : x.proto3Optional = y.proto3Optional
  oneof : x.containingOneof = y.containingOneof
  default : x.defaultValue = y.defaultValue

/-- The type `b` of the new pool is `a` with, at most, more fields, none of them required. -/
structure MessageKept (old new : Pool) (a : old.Index) (b : new.Index) : Prop where
  name : (old.messages a).fullName = (new.messages b).fullName
  mapEntry : (old.messages a).isMapEntry = (new.messages b).isMapEntry
  fields : ∀ x ∈ (old.messages a).fields, ∃ y, (new.messages b).getField x.number = some y ∧ FieldKept old new x y
  required : ∀ y ∈ (new.messages b).fields, y.cardinality = .required →
    ((old.messages a).getField y.number).isSome

/-- A field of `a` is of the message type `b`. -/
def Refers (pool : Pool) (a b : pool.Index) : Prop := ∃ x ∈ (pool.messages a).fields, x.kind = .message b

def Reaches (pool : Pool) : pool.Index → pool.Index → Prop := Relation.ReflTransGen (Refers pool)

structure MethodKept (old new : Pool) (a : old.MethodOf) (b : new.MethodOf) : Prop where
  input : (old.messages a.input).fullName = (new.messages b.input).fullName
  output : (old.messages a.output).fullName = (new.messages b.output).fullName
  options : a.options = b.options
  unary : b.isClientStreaming = false ∧ b.isServerStreaming = false

/-- For each of the RPCs, the new pool has every type that its input or output reaches in the old one. -/
def Extends (list : List Route) (old new : Pool) : Prop :=
  ∀ route ∈ list, ∃ a b, method old route = .ok a ∧ method new route = .ok b ∧ MethodKept old new a b ∧
    ∀ t, Reaches old a.input t ∨ Reaches old a.output t → ∃ u, MessageKept old new t u

theorem EnumKept.refl (e : EnumType) : EnumKept e e := by
  refine ⟨rfl, rfl, fun v member => ?_, fun v _ => rfl⟩
  rw [EnumType.getValueByName_mem member, Option.map_some]

theorem EnumKept.trans {l m n : EnumType} (first : EnumKept l m) (second : EnumKept m n) : EnumKept l n := by
  -- The value's counterpart in the middle carries both facts over.
  have through : ∀ v ∈ l.values, ∃ w ∈ m.values, w.name = v.name ∧ w.number = v.number := by
    intro v member
    obtain ⟨w, found, number⟩ := Option.map_eq_some_iff.mp (first.value v member)
    obtain ⟨listed, name⟩ := EnumType.getValueByName_eq found
    exact ⟨w, listed, name, number⟩
  refine ⟨first.name.trans second.name, first.default.trans second.default, fun v member => ?_, fun v member => ?_⟩
  · obtain ⟨w, listed, name, number⟩ := through v member
    rw [← name, ← number]
    exact second.value w listed
  · obtain ⟨w, listed, -, number⟩ := through v member
    rw [← first.reading v member, ← number]
    exact second.reading w listed

theorem KindKept.refl {pool : Pool} (kind : Kind pool.messageCount pool.enumCount) : KindKept pool pool kind kind := by
  cases kind with
  | scalar s => exact .scalar s
  | message m => exact .message m m rfl
  | enum m => exact .enum m m (EnumKept.refl _)

variable {old mid new : Pool}

theorem KindKept.trans {i : Kind old.messageCount old.enumCount} {j : Kind mid.messageCount mid.enumCount}
    {k : Kind new.messageCount new.enumCount} (first : KindKept old mid i j) (second : KindKept mid new j k) :
    KindKept old new i k := by
  cases first with
  | scalar s =>
    cases second with
    | scalar _ => exact .scalar s
  | message m n same =>
    cases second with
    | message _ o again => exact .message m o (same.trans again)
  | enum m n kept =>
    cases second with
    | enum _ o again => exact .enum m o (kept.trans again)

theorem FieldKept.refl {pool : Pool} (x : pool.FieldOf) : FieldKept pool pool x x :=
  ⟨rfl, rfl, KindKept.refl _, rfl, rfl, rfl, rfl, rfl, rfl, rfl⟩

theorem FieldKept.trans {x : old.FieldOf} {y : mid.FieldOf} {z : new.FieldOf} (first : FieldKept old mid x y)
    (second : FieldKept mid new y z) : FieldKept old new x z where
  name := first.name.trans second.name
  jsonName := first.jsonName.trans second.jsonName
  kind := first.kind.trans second.kind
  cardinality := first.cardinality.trans second.cardinality
  map := first.map.trans second.map
  packing := first.packing.trans second.packing
  presence := first.presence.trans second.presence
  proto3Optional := first.proto3Optional.trans second.proto3Optional
  oneof := first.oneof.trans second.oneof
  default := first.default.trans second.default

theorem MessageKept.refl {pool : Pool} (a : pool.Index) : MessageKept pool pool a a where
  name := rfl
  mapEntry := rfl
  fields x member := ⟨x, Message.getField_mem member, FieldKept.refl x⟩
  required y member _ := by rw [Message.getField_mem member, Option.isSome_some]

theorem MessageKept.trans {a : old.Index} {b : mid.Index} {c : new.Index} (first : MessageKept old mid a b)
    (second : MessageKept mid new b c) : MessageKept old new a c := by
  refine ⟨first.name.trans second.name, first.mapEntry.trans second.mapEntry, fun x member => ?_,
    fun z member required => ?_⟩
  · obtain ⟨y, found, kept⟩ := first.fields x member
    obtain ⟨listed, number⟩ := Message.getField_eq found
    obtain ⟨z, again, later⟩ := second.fields y listed
    rw [number] at again
    exact ⟨z, again, kept.trans later⟩
  · -- A required field was there in the middle, and required already, so it was there at first.
    obtain ⟨y, found⟩ := Option.isSome_iff_exists.mp (second.required z member required)
    obtain ⟨listed, number⟩ := Message.getField_eq found
    obtain ⟨w, again, kept⟩ := second.fields y listed
    rw [number, Message.getField_mem member] at again
    cases again
    have before := first.required y listed (kept.cardinality.trans required)
    rwa [number] at before

/-- A type is where its name is: a kept type that is reached is kept as a type that is reached. -/
theorem reaches_kept {a t : old.Index} {b : mid.Index} (same : (old.messages a).fullName = (mid.messages b).fullName)
    (reach : Reaches old a t) (kept : ∀ s, Reaches old a s → ∃ u, MessageKept old mid s u) :
    ∃ u, Reaches mid b u ∧ MessageKept old mid t u := by
  have named : ∃ u, Reaches mid b u ∧ (old.messages t).fullName = (mid.messages u).fullName := by
    induction reach with
    | refl => exact ⟨b, .refl, same⟩
    | tail before refers ih =>
      obtain ⟨u, reached, name⟩ := ih
      obtain ⟨v, type⟩ := kept _ before
      have at_u : v = u := mid.distinct (type.name.symm.trans name)
      subst at_u
      obtain ⟨x, member, kind⟩ := refers
      obtain ⟨y, found, field⟩ := type.fields x member
      have leads := field.kind
      rw [kind] at leads
      cases right : y.kind with
      | scalar s =>
        rw [right] at leads
        cases leads
      | enum e =>
        rw [right] at leads
        cases leads
      | message n =>
        rw [right] at leads
        cases leads with
        | message _ _ target => exact ⟨n, reached.tail ⟨y, (Message.getField_eq found).1, right⟩, target⟩
  obtain ⟨u, reached, name⟩ := named
  obtain ⟨v, type⟩ := kept t reach
  have at_u : v = u := mid.distinct (type.name.symm.trans name)
  subst at_u
  exact ⟨v, reached, type⟩

/-- A pool extends itself for the RPCs it offers. -/
theorem Extends.refl {pool : Pool} {list : List Route} (offers : ∀ route ∈ list, Offers pool route) :
    Extends list pool pool := by
  intro route member
  obtain ⟨m, found, client, server, -⟩ := offers route member
  exact ⟨m, m, found, found, ⟨rfl, rfl, rfl, client, server⟩, fun t _ => ⟨t, MessageKept.refl t⟩⟩

theorem MethodKept.trans {a : old.MethodOf} {b : mid.MethodOf} {c : new.MethodOf} (first : MethodKept old mid a b)
    (second : MethodKept mid new b c) : MethodKept old new a c :=
  ⟨first.input.trans second.input, first.output.trans second.output, first.options.trans second.options, second.unary⟩

theorem Extends.trans {list : List Route} (first : Extends list old mid) (second : Extends list mid new) :
    Extends list old new := by
  intro route member
  obtain ⟨a, b, before, found, kept, types⟩ := first route member
  obtain ⟨m, c, again, later, then_kept, then_types⟩ := second route member
  rw [found] at again
  cases again
  refine ⟨a, c, before, later, kept.trans then_kept, fun t reach => ?_⟩
  have middle : ∃ u, (Reaches mid b.input u ∨ Reaches mid b.output u) ∧ MessageKept old mid t u := by
    rcases reach with reach | reach
    · obtain ⟨u, reached, type⟩ := reaches_kept kept.input reach fun s from_input => types s (Or.inl from_input)
      exact ⟨u, Or.inl reached, type⟩
    · obtain ⟨u, reached, type⟩ := reaches_kept kept.output reach fun s from_output => types s (Or.inr from_output)
      exact ⟨u, Or.inr reached, type⟩
  obtain ⟨u, reached, type⟩ := middle
  obtain ⟨v, then_type⟩ := then_types u reached
  exact ⟨v, type.trans then_type⟩

end SiriusProxy.Protocol
