import Mathlib.Data.List.Basic

/-! Text of the standard library and of `http`, as the bytes or the characters it consists of. -/
namespace SiriusProxy

/-- The bytes of a text in ASCII. -/
def ascii (text : String) : List UInt8 := text.toList.map fun c => UInt8.ofNat c.toNat

/-- `char::is_whitespace`. -/
def isWhitespace (c : Char) : Bool :=
  decide (9 ≤ c.toNat ∧ c.toNat ≤ 13) || c == ' ' || c.toNat == 0x85 || c.toNat == 0xA0 || c.toNat == 0x1680 ||
    decide (0x2000 ≤ c.toNat ∧ c.toNat ≤ 0x200A) || c.toNat == 0x2028 || c.toNat == 0x2029 || c.toNat == 0x202F ||
    c.toNat == 0x205F || c.toNat == 0x3000

/-- `str::trim`. -/
def trim (text : List Char) : List Char :=
  ((text.dropWhile isWhitespace).reverse.dropWhile isWhitespace).reverse

/-- `HeaderValue::to_str`: visible ASCII, spaces and tabs; the text has the bytes of the value. -/
def toStr (value : List UInt8) : Option (List UInt8) :=
  if value.all fun b => b == 9 || (decide (32 ≤ b) && decide (b < 127)) then some value else none

theorem toStr_eq_some {value text : List UInt8} (read : toStr value = some text) : text = value := by
  rw [toStr] at read
  split at read
  · exact (Option.some.inj read).symm
  · cases read

theorem toStr_append {left right text : List UInt8} (read : toStr (left ++ right) = some text) :
    toStr left = some left ∧ toStr right = some right ∧ text = left ++ right := by
  unfold toStr at read ⊢
  split_ifs at read with visible
  rw [List.all_append, Bool.and_eq_true] at visible
  exact ⟨if_pos visible.1, if_pos visible.2, (Option.some.inj read).symm⟩

end SiriusProxy
