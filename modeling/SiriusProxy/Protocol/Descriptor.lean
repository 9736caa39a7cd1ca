import SiriusProxy.Region
import SiriusProxy.Routing.Call
import Mathlib.Data.Fin.VecNotation
import Mathlib.Data.List.FinRange

open SiriusProxy.Routing

namespace SiriusProxy.Protocol

inductive Scalar where
  | double
  | float
  | int32
  | int64
  | uint32
  | uint64
  | sint32
  | sint64
  | fixed32
  | fixed64
  | sfixed32
  | sfixed64
  | bool
  | string
  | bytes
  deriving DecidableEq, Repr

/-- A message or an enum is referred to by its index in the pool, as in the descriptors of the library. -/
inductive Kind (messages enums : Nat) where
  | scalar (type : Scalar)
  | message (index : Fin messages)
  | enum (index : Fin enums)
  deriving DecidableEq

inductive Cardinality where
  | optional
  | required
  | repeated
  deriving DecidableEq, Repr

structure Field (messages enums : Nat) where
  number : Nat
  name : String
  jsonName : String
  kind : Kind messages enums
  cardinality : Cardinality := .optional
  isPacked : Bool := false
  supportsPresence : Bool := false
  proto3Optional : Bool := false
  containingOneof : Option String := none
  defaultValue : Option String := none

structure Message (messages enums : Nat) where
  fullName : String
  isMapEntry : Bool := false
  fields : List (Field messages enums)
  distinct : (fields.map (·.number)).Nodup

def Message.getField {messages enums : Nat} (m : Message messages enums) (number : Nat) :
    Option (Field messages enums) :=
  m.fields.find? fun f => decide (f.number = number)

def Message.getFieldByName {messages enums : Nat} (m : Message messages enums) (name : String) :
    Option (Field messages enums) :=
  m.fields.find? fun f => decide (f.name = name)

structure EnumValue where
  name : String
  number : Int
  deriving DecidableEq, Repr

/-- `byNumber` is the index of `get_value`: of several values with one number it holds one, and which
one is not documented. -/
structure EnumType where
  fullName : String
  first : EnumValue
  rest : List EnumValue
  byNumber : List EnumValue
  distinct : ((first :: rest).map (·.name)).Nodup
  listed : ∀ v ∈ byNumber, v ∈ first :: rest
  indexed : ∀ v ∈ first :: rest, ∃ w ∈ byNumber, w.number = v.number

def EnumType.values (e : EnumType) : List EnumValue := e.first :: e.rest

def EnumType.defaultValue (e : EnumType) : EnumValue := e.first

def EnumType.getValue (e : EnumType) (number : Int) : Option EnumValue :=
  e.byNumber.find? fun v => decide (v.number = number)

def EnumType.getValueByName (e : EnumType) (name : String) : Option EnumValue :=
  e.values.find? fun v => decide (v.name = name)

/-- `options` are the encoded method options, `skipAuthentication` what their extension reads as a bool. -/
structure Method (messages : Nat) where
  name : String
  input : Fin messages
  output : Fin messages
  options : List UInt8 := []
  skipAuthentication : Option Bool := some false
  isClientStreaming : Bool := false
  isServerStreaming : Bool := false

structure Service (messages : Nat) where
  fullName : String
  methods : List (Method messages)

/-- A descriptor pool. Its references stay inside it, and no two of its messages share a full name. -/
structure Pool where
  messageCount : Nat
  enumCount : Nat
  messages : Fin messageCount → Message messageCount enumCount
  enums : Fin enumCount → EnumType
  services : List (Service messageCount)
  skipAuthentication : Bool := true
  distinct : Function.Injective fun t => (messages t).fullName

namespace Pool

abbrev Index (pool : Pool) : Type := Fin pool.messageCount

abbrev FieldOf (pool : Pool) : Type := Field pool.messageCount pool.enumCount

abbrev MethodOf (pool : Pool) : Type := Method pool.messageCount

def getMessageByName (pool : Pool) (name : String) : Option pool.Index :=
  (List.finRange pool.messageCount).find? fun t => decide ((pool.messages t).fullName = name)

def getServiceByName (pool : Pool) (name : String) : Option (Service pool.messageCount) :=
  pool.services.find? fun s => decide (s.fullName = name)

/-- A repeated field of a map entry type. -/
def isMap (pool : Pool) (f : pool.FieldOf) : Bool :=
  decide (f.cardinality = .repeated) && match f.kind with
    | .message t => (pool.messages t).isMapEntry
    | _ => false

def isList (pool : Pool) (f : pool.FieldOf) : Bool := decide (f.cardinality = .repeated) && !pool.isMap f

theorem getMessageByName_eq {pool : Pool} {name : String} {t : pool.Index}
    (found : pool.getMessageByName name = some t) : (pool.messages t).fullName = name := by
  have meets := List.find?_some found
  exact of_decide_eq_true meets

end Pool

theorem Message.getField_eq {messages enums : Nat} {m : Message messages enums} {number : Nat}
    {f : Field messages enums} (found : m.getField number = some f) : f ∈ m.fields ∧ f.number = number := by
  have meets := List.find?_some found
  exact ⟨List.mem_of_find?_eq_some found, of_decide_eq_true meets⟩

/-- Where the keys are distinct, an entry is what its key finds. -/
theorem find?_distinct {α β : Type} [DecidableEq β] {key : α → β} {list : List α} (distinct : (list.map key).Nodup)
    {a : α} (member : a ∈ list) : list.find? (fun b => decide (key b = key a)) = some a := by
  induction list with
  | nil => exact absurd member List.not_mem_nil
  | cons b rest ih =>
    obtain ⟨fresh, others⟩ := List.nodup_cons.mp distinct
    rcases List.mem_cons.mp member with rfl | later
    · simp only [List.find?_cons, decide_true]
    · have differs : key b ≠ key a := fun same => fresh (List.mem_map.mpr ⟨a, later, same.symm⟩)
      simp only [List.find?_cons, differs, decide_false]
      exact ih others later

theorem Message.getField_mem {messages enums : Nat} {m : Message messages enums} {f : Field messages enums}
    (member : f ∈ m.fields) : m.getField f.number = some f :=
  find?_distinct m.distinct member

theorem EnumType.getValueByName_mem {e : EnumType} {v : EnumValue} (member : v ∈ e.values) :
    e.getValueByName v.name = some v :=
  find?_distinct e.distinct member

theorem EnumType.getValueByName_eq {e : EnumType} {name : String} {v : EnumValue}
    (found : e.getValueByName name = some v) : v ∈ e.values ∧ v.name = name := by
  have meets := List.find?_some found
  exact ⟨List.mem_of_find?_eq_some found, of_decide_eq_true meets⟩

/-- The service and the name in a route's constant. -/
def target : Route → String × String
  | .version => ("app.masterdata.MasterdataService", "Version")
  | .announcements => ("app.announcement.AnnouncementService", "GetList")
  | .announcement => ("app.announcement.AnnouncementService", "Get")
  | .eventRanking => ("app.event.EventService", "GetRankingList")
  | .eventDeck => ("app.event.EventService", "GetDeck")
  | .musicRanking => ("app.livemusic.LiveMusicService", "GetRanking")
  | .challengeRanking => ("app.event.EventService", "GetChallengeMusicRanking")
  | .whoami => ("app.player.PlayerService", "Whoami")
  | .playerData => ("app.player.PlayerService", "GetPlayerData")
  | .profile => ("app.friend.FriendService", "FindByProfileID")
  | .serverList => ("app.playerlogin.PlayerLoginService", "GetServerList")
  | .playerLogin => ("app.playerlogin.PlayerLoginService", "PlayerLogin")

def path (route : Route) : String := "/" ++ (target route).1 ++ "/" ++ (target route).2

def globalContract : List Route :=
  [.version, .serverList, .announcements, .announcement, .profile, .eventRanking, .eventDeck, .musicRanking,
    .challengeRanking, .playerData, .playerLogin]

/-- Every RPC a family's bundle must provide: public routes plus internal login. -/
def contractForFamily (family : Family) : List Route := if family = .global then globalContract else routes

def invalid {α : Type} : Except AppError α := .error .protocolDefinition

def orInvalid {α : Type} : Option α → Except AppError α
  | some a => .ok a
  | none => invalid

def ensure (holds : Bool) : Except AppError Unit := if holds then .ok () else invalid

theorem orInvalid_ok {α : Type} {found : Option α} {a : α} (ok : orInvalid found = .ok a) : found = some a := by
  cases found with
  | none => cases ok
  | some b =>
    cases ok
    rfl

theorem ensure_ok {holds : Bool} {u : Unit} (ok : ensure holds = .ok u) : holds = true := by
  cases holds with
  | false => cases ok
  | true => rfl

/-- `rsplit_once`. -/
def rsplitOnce (c : Char) (text : List Char) : Option (List Char × List Char) :=
  match text.reverse.span fun d => decide (d ≠ c) with
  | (_, []) => none
  | (last, _ :: before) => some (before.reverse, last.reverse)

/-- What `method` cuts a route into. -/
theorem rsplitOnce_path (route : Route) :
    rsplitOnce '/' ((path route).toList.dropWhile fun c => decide (c = '/')) =
      some ((target route).1.toList, (target route).2.toList) := by
  cases route <;> decide +kernel

def method (pool : Pool) (route : Route) : Except AppError pool.MethodOf :=
  orInvalid ((pool.getServiceByName (target route).1).bind fun s =>
    s.methods.find? fun m => decide (m.name = (target route).2))

end SiriusProxy.Protocol
