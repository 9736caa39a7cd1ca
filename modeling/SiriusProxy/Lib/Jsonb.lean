import Mathlib.Algebra.GroupWithZero.Nat

/-! JSON values as a program holds them, and what a JSONB column gives back of them. -/
namespace Jsonb

/-- A number as it is written: its digits without the point, how many of them stand behind the point,
and the exponent. -/
structure Spelling where
  negative : Bool
  digits : Nat
  fraction : Nat
  exponent : Int
  deriving DecidableEq, Repr

/-- A decimal without exponent, as the column prints it. -/
structure Numeric where
  negative : Bool
  digits : Nat
  scale : Nat
  deriving DecidableEq, Repr

/-- The exact value, with the fractional digits of the text and no sign on zero. -/
def Spelling.numeric (s : Spelling) : Numeric :=
  let digits := s.digits * 10 ^ (s.exponent - s.fraction).toNat
  { negative := s.negative && digits != 0, digits, scale := (s.fraction - s.exponent).toNat }

/-- `PosInt` is an `u64`; `NegInt n` is the `i64` below zero with the value `-(n + 1)`. -/
inductive Number (F : Type) where
  | posInt (n : Fin (2 ^ 64))
  | negInt (n : Fin (2 ^ 63))
  | float (f : F)

inductive Value (F : Type) where
  | null
  | bool (b : Bool)
  | number (n : Number F)
  | string (s : String)
  | array (items : List (Value F))
  | object (fields : List (String × Value F))

/-- Doubles: how they are written, the double that a decimal is read as, and their equality. -/
structure Doubles (F : Type) where
  written : F → Spelling
  read : Numeric → F
  same : F → F → Bool

variable {F : Type} (doubles : Doubles F)

def Number.spelling : Number F → Spelling
  | .posInt n => ⟨false, n, 0, 0⟩
  | .negInt n => ⟨true, n + 1, 0, 0⟩
  | .float f => doubles.written f

/-- An integer that fits is kept as an integer, any other number as a double. -/
def Numeric.parse (m : Numeric) : Number F :=
  if m.scale ≠ 0 then .float (doubles.read m)
  else if m.negative then
    if h : m.digits - 1 < 2 ^ 63 then .negInt ⟨m.digits - 1, h⟩ else .float (doubles.read m)
  else if h : m.digits < 2 ^ 64 then .posInt ⟨m.digits, h⟩ else .float (doubles.read m)

/-- What comes back of a number. -/
def Number.stored (n : Number F) : Number F := (n.spelling doubles).numeric.parse doubles

def Number.same : Number F → Number F → Bool
  | .posInt a, .posInt b => a == b
  | .negInt a, .negInt b => a == b
  | .float a, .float b => doubles.same a b
  | _, _ => false

def hasNul (s : String) : Bool := s.toList.contains '\x00'

mutual

/-- What comes back of a value; texts with U+0000 are refused. -/
def Value.stored : Value F → Option (Value F)
  | .null => some .null
  | .bool b => some (.bool b)
  | .number n => some (.number (n.stored doubles))
  | .string s => if hasNul s then none else some (.string s)
  | .array items => (storedItems items).map .array
  | .object fields => (storedFields fields).map .object

def storedItems : List (Value F) → Option (List (Value F))
  | [] => some []
  | item :: rest => match item.stored, storedItems rest with
    | some item, some rest => some (item :: rest)
    | _, _ => none

def storedFields : List (String × Value F) → Option (List (String × Value F))
  | [] => some []
  | (key, item) :: rest => if hasNul key then none else match item.stored, storedFields rest with
    | some item, some rest => some ((key, item) :: rest)
    | _, _ => none

end

mutual

def Value.same : Value F → Value F → Bool
  | .null, .null => true
  | .bool a, .bool b => a == b
  | .number a, .number b => a.same doubles b
  | .string a, .string b => a == b
  | .array a, .array b => sameItems a b
  | .object a, .object b => sameFields a b
  | _, _ => false

def sameItems : List (Value F) → List (Value F) → Bool
  | [], [] => true
  | a :: as, b :: bs => a.same b && sameItems as bs
  | _, _ => false

def sameFields : List (String × Value F) → List (String × Value F) → Bool
  | [], [] => true
  | (k, a) :: as, (l, b) :: bs => k == l && a.same b && sameFields as bs
  | _, _ => false

end

/-- A number that comes back as it was: an integer, or a double whose decimal has a fraction or does not
fit 64 bits, and is read as an equal double. -/
def Number.Stable : Number F → Prop
  | .float f =>
    let m := (doubles.written f).numeric
    (m.scale ≠ 0 ∨ (if m.negative then 2 ^ 63 < m.digits else 2 ^ 64 ≤ m.digits)) ∧ doubles.same (doubles.read m) f = true
  | _ => True

mutual

/-- Every number in the value is stable. -/
def Value.Stable : Value F → Prop
  | .number n => n.Stable doubles
  | .array items => StableItems items
  | .object fields => StableFields fields
  | _ => True

def StableItems : List (Value F) → Prop
  | [] => True
  | item :: rest => item.Stable ∧ StableItems rest

def StableFields : List (String × Value F) → Prop
  | [] => True
  | (_, item) :: rest => item.Stable ∧ StableFields rest

end

variable {doubles}

theorem Number.stored_posInt (n : Fin (2 ^ 64)) : (Number.posInt n).stored doubles = .posInt n := by
  have numeric : ((Number.posInt n).spelling doubles).numeric = ⟨false, n, 0⟩ := by
    simp [Number.spelling, Spelling.numeric]
  rw [Number.stored, numeric]
  simp [Numeric.parse]

theorem Number.stored_negInt (n : Fin (2 ^ 63)) : (Number.negInt n).stored doubles = .negInt n := by
  have numeric : ((Number.negInt n).spelling doubles).numeric = ⟨true, n + 1, 0⟩ := by
    simp [Number.spelling, Spelling.numeric]
  rw [Number.stored, numeric]
  simp [Numeric.parse]

/-- Only an integer that fits 64 bits is not read as a double. -/
theorem Numeric.parse_float (m : Numeric) (f : F) (signed : m.negative = true → m.digits ≠ 0) :
    (m.parse doubles).same doubles (.float f) = true ↔
      (m.scale ≠ 0 ∨ (if m.negative then 2 ^ 63 < m.digits else 2 ^ 64 ≤ m.digits)) ∧ doubles.same (doubles.read m) f = true := by
  unfold Numeric.parse
  by_cases whole : m.scale = 0
  · rw [if_neg fun differs => differs whole]
    cases sign : m.negative with
    | true =>
      have some_ := signed sign
      rw [if_pos rfl, if_pos rfl]
      by_cases fits : m.digits - 1 < 2 ^ 63
      · rw [dif_pos fits]
        exact ⟨nofun, fun ⟨apart, _⟩ => apart.elim (absurd whole) fun large => by omega⟩
      · rw [dif_neg fits]
        exact ⟨fun same => ⟨Or.inr (by omega), same⟩, And.right⟩
    | false =>
      rw [if_neg Bool.false_ne_true, if_neg Bool.false_ne_true]
      by_cases fits : m.digits < 2 ^ 64
      · rw [dif_pos fits]
        exact ⟨nofun, fun ⟨apart, _⟩ => apart.elim (absurd whole) fun large => by omega⟩
      · rw [dif_neg fits]
        exact ⟨fun same => ⟨Or.inr (by omega), same⟩, And.right⟩
  · rw [if_pos whole]
    simp [whole, Number.same]

theorem Number.same_stored (n : Number F) : (n.stored doubles).same doubles n = true ↔ n.Stable doubles := by
  cases n with
  | posInt n => simp [Number.stored_posInt, Number.same, Number.Stable]
  | negInt n => simp [Number.stored_negInt, Number.same, Number.Stable]
  | float f =>
    refine Numeric.parse_float (doubles.written f).numeric f fun sign => ?_
    simp only [Spelling.numeric, Bool.and_eq_true, bne_iff_ne] at sign ⊢
    exact sign.2

mutual

/-- What comes back is equal to what was stored exactly if every number is stable. -/
theorem Value.same_stored (v w : Value F) (stored : v.stored doubles = some w) :
    w.same doubles v = true ↔ v.Stable doubles := by
  cases v with
  | null =>
    cases stored
    simp [Value.same, Value.Stable]
  | bool b =>
    cases stored
    simp [Value.same, Value.Stable]
  | number n =>
    cases stored
    simpa only [Value.same, Value.Stable] using n.same_stored
  | string s =>
    simp only [Value.stored, Option.ite_none_left_eq_some, Option.some.injEq] at stored
    rw [← stored.2]
    simp [Value.same, Value.Stable]
  | array items =>
    simp only [Value.stored, Option.map_eq_some_iff] at stored
    obtain ⟨back, kept, rfl⟩ := stored
    simpa only [Value.same, Value.Stable] using sameItems_stored items back kept
  | object fields =>
    simp only [Value.stored, Option.map_eq_some_iff] at stored
    obtain ⟨back, kept, rfl⟩ := stored
    simpa only [Value.same, Value.Stable] using sameFields_stored fields back kept

theorem sameItems_stored (items back : List (Value F)) (stored : storedItems doubles items = some back) :
    sameItems doubles back items = true ↔ StableItems doubles items := by
  cases items with
  | nil =>
    cases stored
    simp [sameItems, StableItems]
  | cons item rest =>
    simp only [storedItems] at stored
    split at stored
    · rename_i first others kept more
      cases stored
      have one := Value.same_stored item first kept
      have all := sameItems_stored rest others more
      simp only [sameItems, StableItems, Bool.and_eq_true, one, all]
    · cases stored

theorem sameFields_stored (fields back : List (String × Value F)) (stored : storedFields doubles fields = some back) :
    sameFields doubles back fields = true ↔ StableFields doubles fields := by
  cases fields with
  | nil =>
    cases stored
    simp [sameFields, StableFields]
  | cons field rest =>
    obtain ⟨key, item⟩ := field
    simp only [storedFields] at stored
    split at stored
    · cases stored
    · split at stored
      · rename_i first others kept more
        cases stored
        have one := Value.same_stored item first kept
        have all := sameFields_stored rest others more
        simp only [sameFields, StableFields, beq_self_eq_true, Bool.true_and, Bool.and_eq_true, one, all]
      · cases stored

end

end Jsonb
