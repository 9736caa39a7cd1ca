import Mathlib.Algebra.BigOperators.Group.List.Basic
import Mathlib.Data.Nat.Digits.Defs

/-! Compact JSON text: no blanks, and in strings only the escapes that JSON requires. -/
namespace JsonText

def hexDigit (n : Nat) : Char := Nat.digitChar n

def escape (c : Char) : List Char :=
  if c = '"' then ['\\', '"']
  else if c = '\\' then ['\\', '\\']
  else if c.toNat = 8 then ['\\', 'b']
  else if c.toNat = 9 then ['\\', 't']
  else if c.toNat = 10 then ['\\', 'n']
  else if c.toNat = 12 then ['\\', 'f']
  else if c.toNat = 13 then ['\\', 'r']
  else if c.toNat < 32 then ['\\', 'u', '0', '0', hexDigit (c.toNat / 16), hexDigit (c.toNat % 16)]
  else [c]

def str (s : String) : List Char := '"' :: (s.toList.flatMap escape ++ ['"'])

def nat (n : Nat) : List Char := (Nat.repr n).toList

/-- The items with a comma between two of them. -/
def join : List (List Char) → List Char
  | [] => []
  | [item] => item
  | item :: next :: rest => item ++ ',' :: join (next :: rest)

def arr (items : List (List Char)) : List Char := '[' :: (join items ++ [']'])

def obj (fields : List (String × List Char)) : List Char :=
  '\x7b' :: (join (fields.map fun field => str field.1 ++ ':' :: field.2) ++ ['\x7d'])

/-- The length in UTF-8. -/
def size (text : List Char) : Nat := (text.map Char.utf8Size).sum

@[simp] theorem size_nil : size [] = 0 := rfl

@[simp] theorem size_cons (c : Char) (text : List Char) : size (c :: text) = c.utf8Size + size text := by
  simp [size]

@[simp] theorem size_append (a b : List Char) : size (a ++ b) = size a + size b := by
  simp [size]

theorem utf8ByteSize_eq_size (s : String) : s.utf8ByteSize = size s.toList := by
  have chars : ∀ l : List Char, (String.ofList l).utf8ByteSize = size l := by
    intro l
    induction l with
    | nil => rfl
    | cons c l ih => simp [ih]
  rw [← chars, String.ofList_toList]

/-- Visible ASCII that needs no escape. -/
def isPlain (c : Char) : Bool := decide (32 ≤ c.toNat) && decide (c.toNat < 128) && c != '"' && c != '\\'

theorem escape_plain {c : Char} (plain : isPlain c = true) : escape c = [c] := by
  simp only [isPlain, Bool.and_eq_true, decide_eq_true_eq, bne_iff_ne, ne_eq] at plain
  obtain ⟨⟨⟨visible, -⟩, quote⟩, backslash⟩ := plain
  unfold escape
  rw [if_neg quote, if_neg backslash, if_neg (by omega), if_neg (by omega), if_neg (by omega), if_neg (by omega),
    if_neg (by omega), if_neg (by omega)]

theorem flatMap_plain {l : List Char} (plain : l.all isPlain = true) : l.flatMap escape = l := by
  induction l with
  | nil => rfl
  | cons c l ih =>
    obtain ⟨first, rest⟩ := by simpa only [List.all_cons, Bool.and_eq_true] using plain
    rw [List.flatMap_cons, escape_plain first, ih rest]
    rfl

/-- A plain text is written as it is, with its quotes. -/
theorem str_plain {s : String} (plain : s.toList.all isPlain = true) : str s = '"' :: (s.toList ++ ['"']) := by
  rw [str, flatMap_plain plain]

theorem size_str_plain {s : String} (plain : s.toList.all isPlain = true) : size (str s) = s.utf8ByteSize + 2 := by
  have quote : ('"').utf8Size = 1 := rfl
  rw [str_plain plain, utf8ByteSize_eq_size]
  simp only [size_cons, size_append, size_nil, quote]
  omega

theorem size_ascii {l : List Char} (ascii : ∀ c ∈ l, c.utf8Size = 1) : size l = l.length := by
  induction l with
  | nil => rfl
  | cons c l ih =>
    have rest := ih fun d member => ascii d (List.mem_cons_of_mem c member)
    rw [size_cons, ascii c List.mem_cons_self, rest, List.length_cons, Nat.add_comm]

theorem utf8Size_plain {c : Char} (plain : isPlain c = true) : c.utf8Size = 1 := by
  simp only [isPlain, Bool.and_eq_true, decide_eq_true_eq] at plain
  have small : c.val ≤ 127 := UInt32.le_iff_toNat_le.mpr (Nat.le_of_lt_succ plain.1.1.2)
  simp [Char.utf8Size, small]

theorem sum_size_le {items : List (List Char)} {bound : Nat} (each : ∀ item ∈ items, size item ≤ bound) :
    (items.map size).sum ≤ items.length * bound := by
  induction items with
  | nil => exact Nat.zero_le _
  | cons item rest ih =>
    have first := each item List.mem_cons_self
    have others := ih fun other member => each other (List.mem_cons_of_mem item member)
    rw [List.map_cons, List.sum_cons, List.length_cons, Nat.succ_mul]
    omega

theorem size_flatMap_le {α : Type} {f : α → List Char} {items : List α} {bound : Nat}
    (each : ∀ item ∈ items, size (f item) ≤ bound) : size (items.flatMap f) ≤ items.length * bound := by
  induction items with
  | nil => exact Nat.zero_le _
  | cons item rest ih =>
    have first := each item List.mem_cons_self
    have others := ih fun other member => each other (List.mem_cons_of_mem item member)
    rw [List.flatMap_cons, size_append, List.length_cons, Nat.succ_mul]
    omega

theorem size_nat_le {n digits : Nat} (positive : 0 < digits) (bound : n < 10 ^ digits) : size (nat n) ≤ digits := by
  have ascii : ∀ c ∈ nat n, c.utf8Size = 1 := by
    intro c member
    have digit : c.isDigit = true := by
      rw [nat, Nat.repr, String.toList_ofList] at member
      exact Nat.isDigit_of_mem_toDigits (by omega) (by omega) member
    simp only [Char.isDigit, Bool.and_eq_true, decide_eq_true_eq] at digit
    have small : c.val ≤ 127 := UInt32.le_trans digit.2 (by decide)
    simp [Char.utf8Size, small]
  rw [size_ascii ascii]
  exact Nat.repr_length n digits positive bound

/-- Between the items stand the commas. -/
theorem size_join (items : List (List Char)) : size (join items) = (items.map size).sum + (items.length - 1) := by
  induction items with
  | nil => rfl
  | cons item rest ih =>
    cases rest with
    | nil => simp [join]
    | cons next rest =>
      have comma : (',').utf8Size = 1 := rfl
      rw [join, size_append, size_cons, ih, comma]
      simp only [List.map_cons, List.sum_cons, List.length_cons]
      omega

theorem size_arr (items : List (List Char)) :
    size (arr items) = (items.map size).sum + (items.length - 1) + 2 := by
  have open_ : ('[').utf8Size = 1 := rfl
  have close : (']').utf8Size = 1 := rfl
  simp only [arr, size_cons, size_append, size_nil, size_join, open_, close]
  omega

theorem size_obj (fields : List (String × List Char)) :
    size (obj fields) = (fields.map fun field => size (str field.1) + 1 + size field.2).sum + (fields.length - 1) + 2 := by
  have open_ : ('\x7b').utf8Size = 1 := rfl
  have close : ('\x7d').utf8Size = 1 := rfl
  have colon : (':').utf8Size = 1 := rfl
  simp only [obj, size_cons, size_append, size_nil, size_join, open_, close, List.map_map, List.length_map,
    Function.comp_def, colon, Nat.add_assoc]
  omega

def indent (depth : Nat) : List Char := List.replicate (2 * depth) ' '

/-- The items of an array or object at `depth`, each on a line of its own. -/
def block (opened closed : Char) (depth : Nat) (items : List (List Char)) : List Char :=
  if items.isEmpty then [opened, closed]
  else opened :: (join (items.map fun item => '\n' :: (indent (depth + 1) ++ item)) ++ '\n' :: (indent depth ++ [closed]))

def prettyArr (depth : Nat) (items : List (List Char)) : List Char := block '[' ']' depth items

def prettyObj (depth : Nat) (fields : List (String × List Char)) : List Char :=
  block '\x7b' '\x7d' depth (fields.map fun field => str field.1 ++ ':' :: ' ' :: field.2)

theorem size_indent (depth : Nat) : size (indent depth) = 2 * depth := by
  have blank : (' ').utf8Size = 1 := rfl
  simp [size, indent, blank]

/-- Each item takes a line feed, its indentation and a comma. -/
theorem size_block {opened closed : Char} (first : opened.utf8Size = 1) (last : closed.utf8Size = 1) (depth : Nat)
    (items : List (List Char)) :
    size (block opened closed depth items) ≤ (items.map size).sum + items.length * (2 * depth + 4) + (2 * depth + 3) := by
  have feed : ('\n').utf8Size = 1 := rfl
  have lines : ((items.map fun item => '\n' :: (indent (depth + 1) ++ item)).map size).sum =
      (items.map size).sum + items.length * (2 * depth + 3) := by
    induction items with
    | nil => simp
    | cons item rest ih =>
      simp only [List.map_cons, List.sum_cons, List.length_cons, size_cons, size_append, size_indent, feed, ih, Nat.add_mul]
      omega
  unfold block
  split
  · simp only [size_cons, size_nil, first, last]
    omega
  · simp only [size_cons, size_append, size_nil, size_indent, size_join, List.length_map, lines, first, last, feed, Nat.mul_add]
    omega

theorem size_prettyArr (depth : Nat) (items : List (List Char)) :
    size (prettyArr depth items) ≤ (items.map size).sum + items.length * (2 * depth + 4) + (2 * depth + 3) :=
  size_block rfl rfl depth items

theorem size_prettyArr_le {items : List (List Char)} {depth bound : Nat} (each : ∀ item ∈ items, size item ≤ bound) :
    size (prettyArr depth items) ≤ items.length * (bound + (2 * depth + 4)) + (2 * depth + 3) := by
  have total := sum_size_le each
  have array := size_prettyArr depth items
  rw [Nat.mul_add]
  omega

theorem size_prettyObj (depth : Nat) (fields : List (String × List Char)) :
    size (prettyObj depth fields) ≤ (fields.map fun field => size (str field.1) + 2 + size field.2).sum +
      fields.length * (2 * depth + 4) + (2 * depth + 3) := by
  have each : ∀ field : String × List Char,
      size (str field.1 ++ ':' :: ' ' :: field.2) = size (str field.1) + 2 + size field.2 := by
    intro field
    have colon : (':').utf8Size = 1 := rfl
    have blank : (' ').utf8Size = 1 := rfl
    simp only [size_append, size_cons, colon, blank]
    omega
  refine (size_block rfl rfl depth _).trans_eq ?_
  simp only [List.map_map, List.length_map, Function.comp_def, each]

end JsonText
