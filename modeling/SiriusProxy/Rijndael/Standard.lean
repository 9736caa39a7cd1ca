import SiriusProxy.Lib.Cbc
import SiriusProxy.Rijndael.Field
import Mathlib.Data.Fintype.Pi
import Mathlib.Data.Fin.VecNotation
import Mathlib.Tactic.FinCases

open Bytes

namespace SiriusProxy.Rijndael

/-- A column of the state, and a word of the key schedule. -/
abbrev Word : Type := Fin 4 → UInt8

/-- A block of 256 bits: column, then row. -/
def State : Type := Fin 8 → Word

instance : XorOp State := ⟨fun s t c r => s c r ^^^ t c r⟩

instance : Zero State := ⟨fun _ _ => 0⟩

theorem State.xor_apply (s t : State) (c : Fin 8) (r : Fin 4) : (s ^^^ t) c r = s c r ^^^ t c r := rfl

instance : LawfulXor State where
  xor_assoc s t u := by
    funext c r
    exact xor_assoc _ _ _
  xor_self s := by
    funext c r
    exact xor_self _
  xor_zero s := by
    funext c r
    exact xor_zero _
  xor_comm s t := by
    funext c r
    exact xor_comm _ _

/-- Multiplication by `x` modulo `x^8 + x^4 + x^3 + x + 1`. -/
def double (a : UInt8) : UInt8 :=
  UInt8.ofNat (if 2 * a.toNat < 256 then 2 * a.toNat else 2 * a.toNat ^^^ 0x11b)

def subBytes (s : State) : State := fun c r => sub (s c r)

/-- How far each row moves for a block of eight columns. -/
def shift : Fin 4 → Fin 8 := ![0, 1, 3, 4]

def shiftRows (s : State) : State := fun c r => s (c + shift r) r

def mixColumn (a : Word) : Word :=
  fun r => double (a r) ^^^ (double (a (r + 1)) ^^^ a (r + 1)) ^^^ a (r + 2) ^^^ a (r + 3)

def mixColumns (s : State) : State := fun c => mixColumn (s c)

/-- Round constants: the powers of `x`. -/
def rcon : Nat → UInt8
  | 0 => 1
  | j + 1 => double (rcon j)

/-- Word `i` of the schedule from the words eight and one before it. -/
def nextWord (i : Nat) (back last : Word) : Word := fun r =>
  if i % 8 = 0 then back r ^^^ (sub (last (r + 1)) ^^^ if r = 0 then rcon (i / 8 - 1) else 0)
  else if i % 8 = 4 then back r ^^^ sub (last r)
  else back r ^^^ last r

/-- The key schedule of a key of eight words. -/
def word (key : State) (i : Nat) : Word :=
  if bound : i < 8 then key ⟨i, bound⟩ else nextWord i (word key (i - 8)) (word key (i - 1))
  termination_by i
  decreasing_by all_goals omega

def roundKey (key : State) (round : Nat) : State := fun c => word key (round * 8 + c)

/-- The state before the substitution of round `n + 1`. -/
def rounds (key : State) : Nat → State → State
  | 0, s => s ^^^ roundKey key 0
  | n + 1, s => mixColumns (shiftRows (subBytes (rounds key n s))) ^^^ roundKey key (n + 1)

/-- Rijndael with a block and a key of 256 bits: fourteen rounds, the last without `mixColumns`. -/
def encryptBlock (key s : State) : State := shiftRows (subBytes (rounds key 13 s)) ^^^ roundKey key 14

section Bytes

def ofWord (w : Word) : List UInt8 := [w 0, w 1, w 2, w 3]

def columns (s : State) : List (List UInt8) :=
  [ofWord (s 0), ofWord (s 1), ofWord (s 2), ofWord (s 3), ofWord (s 4), ofWord (s 5), ofWord (s 6), ofWord (s 7)]

/-- The bytes of a block, column by column. -/
def toBytes (s : State) : List UInt8 := (columns s).flatten

def ofBytes (bytes : List UInt8) : State := fun c r => bytes.getD (c * 4 + r) 0

theorem ofWord_read (w : Word) (r : Nat) (bound : r < 4) : (ofWord w)[r]? = some (w (Fin.ofNat 4 r)) := by
  match r, bound with
  | 0, _ => rfl
  | 1, _ => rfl
  | 2, _ => rfl
  | 3, _ => rfl

theorem columns_sized (s : State) : ∀ column ∈ columns s, column.length = 4 := by
  intro column member
  simp only [columns, List.mem_cons, List.not_mem_nil, or_false] at member
  rcases member with rfl | rfl | rfl | rfl | rfl | rfl | rfl | rfl <;> rfl

theorem length_columns (s : State) : (columns s).length = 8 := rfl

theorem length_toBytes (s : State) : (toBytes s).length = 32 := rfl

theorem toBytes_range (s : State) :
    toBytes s = (List.range' 0 32).map fun i => s (Fin.ofNat 8 (i / 4)) (Fin.ofNat 4 i) := rfl

theorem chunks_toBytes (s : State) : Cbc.chunks 4 8 (toBytes s) = columns s :=
  Cbc.chunks_flatten (columns_sized s)

theorem toBytes_ofBytes {bytes : List UInt8} (full : bytes.length = 32) : toBytes (ofBytes bytes) = bytes := by
  rw [toBytes_range]
  refine List.ext_getElem? fun i => ?_
  rw [List.getElem?_map]
  by_cases inside : i < 32
  · have place : ofBytes bytes (Fin.ofNat 8 (i / 4)) (Fin.ofNat 4 i) = bytes.getD i 0 := by
      have index : i / 4 % 8 * 4 + i % 4 = i := by omega
      rw [ofBytes, Fin.val_ofNat, Fin.val_ofNat, index]
    rw [List.getElem?_range' (by simpa using inside), Option.map_some, Nat.zero_add, Nat.one_mul, place,
      List.getD_eq_getElem?_getD, List.getElem?_eq_getElem (by omega), Option.getD_some]
  · rw [List.getElem?_eq_none (by rw [List.length_range']; omega), List.getElem?_eq_none (by omega), Option.map_none]

theorem ofBytes_toBytes (s : State) : ofBytes (toBytes s) = s := by
  funext c r
  fin_cases c <;> fin_cases r <;> rfl

end Bytes

section Inverse

def unmixColumn (a : Word) : Word :=
  fun r => mul (a r) 14 ^^^ mul (a (r + 1)) 11 ^^^ mul (a (r + 2)) 13 ^^^ mul (a (r + 3)) 9

def unmixColumns (s : State) : State := fun c => unmixColumn (s c)

/-- The substitution and the shift of rows undone, for an inverse `unsub` of the table. -/
def unshift (unsub : UInt8 → UInt8) (s : State) : State := fun c r => unsub (s (c - shift r) r)

def unround (unsub : UInt8 → UInt8) (key : State) (round : Nat) (s : State) : State :=
  if round ≠ 0 then unmixColumns (unshift unsub s ^^^ roundKey key round)
  else unshift unsub s ^^^ roundKey key round

/-- Rounds `n - 1` down to `0`. -/
def unrounds (unsub : UInt8 → UInt8) (key : State) : Nat → State → State
  | 0, s => s
  | n + 1, s => unrounds unsub key n (unround unsub key n s)

def decryptBlock (unsub : UInt8 → UInt8) (key s : State) : State :=
  unrounds unsub key 14 (s ^^^ roundKey key 14)

end Inverse

theorem double_eq (a : UInt8) : double a = xtime a := by
  have checked := all_spec (p := fun a => double a == xtime a) (by decide +kernel) a
  exact beq_iff_eq.mp checked

theorem mul_xor_left (a b c : UInt8) : mul (a ^^^ b) c = mul a c ^^^ mul b c := mul_left c a b

/-- What a byte of a column contributes to the four bytes of the mixed and unmixed column. -/
theorem unmix_coefficients (a : UInt8) :
    mul (xtime a) 14 ^^^ mul a 11 ^^^ mul a 13 ^^^ mul (xtime a ^^^ a) 9 = a ∧
      mul (xtime a ^^^ a) 14 ^^^ mul (xtime a) 11 ^^^ mul a 13 ^^^ mul a 9 = 0 ∧
      mul a 14 ^^^ mul (xtime a ^^^ a) 11 ^^^ mul (xtime a) 13 ^^^ mul a 9 = 0 ∧
      mul a 14 ^^^ mul a 11 ^^^ mul (xtime a ^^^ a) 13 ^^^ mul (xtime a) 9 = 0 := by
  have one : ∀ c, Additive fun x => mul x c := mul_left
  have two : ∀ c, Additive fun x => mul (xtime x) c := fun c => (mul_left c).comp xtime_additive
  have three : ∀ c, Additive fun x => mul (xtime x ^^^ x) c :=
    fun c => (mul_left c).comp (xtime_additive.xor Additive.id)
  refine ⟨?_, ?_, ?_, ?_⟩
  · exact ((((two 14).xor (one 11)).xor (one 13)).xor (three 9)).ext Additive.id (by decide +kernel) a
  · exact ((((three 14).xor (two 11)).xor (one 13)).xor (one 9)).ext Additive.nothing (by decide +kernel) a
  · exact ((((one 14).xor (three 11)).xor (two 13)).xor (one 9)).ext Additive.nothing (by decide +kernel) a
  · exact ((((one 14).xor (one 11)).xor (three 13)).xor (two 9)).ext Additive.nothing (by decide +kernel) a

theorem wrap (r : Fin 4) : r + 1 + 1 = r + 2 ∧ r + 1 + 2 = r + 3 ∧ r + 1 + 3 = r ∧ r + 2 + 1 = r + 3 ∧ r + 2 + 2 = r ∧
    r + 2 + 3 = r + 1 ∧ r + 3 + 1 = r ∧ r + 3 + 2 = r + 1 ∧ r + 3 + 3 = r + 2 := by
  revert r
  decide

theorem unmixColumn_mixColumn (a : Word) : unmixColumn (mixColumn a) = a := by
  funext r
  obtain ⟨w1, w2, w3, w4, w5, w6, w7, w8, w9⟩ := wrap r
  obtain ⟨own, -, -, -⟩ := unmix_coefficients (a r)
  obtain ⟨-, next, -, -⟩ := unmix_coefficients (a (r + 1))
  obtain ⟨-, -, across, -⟩ := unmix_coefficients (a (r + 2))
  obtain ⟨-, -, -, before⟩ := unmix_coefficients (a (r + 3))
  simp only [mul_xor_left] at own next across before
  simp only [unmixColumn, mixColumn, w1, w2, w3, w4, w5, w6, w7, w8, w9, double_eq, mul_xor_left]
  calc _ = (mul (xtime (a r)) 14 ^^^ mul (a r) 11 ^^^ mul (a r) 13 ^^^ (mul (xtime (a r)) 9 ^^^ mul (a r) 9)) ^^^
      ((mul (xtime (a (r + 1))) 14 ^^^ mul (a (r + 1)) 14) ^^^ mul (xtime (a (r + 1))) 11 ^^^ mul (a (r + 1)) 13 ^^^
        mul (a (r + 1)) 9) ^^^
      (mul (a (r + 2)) 14 ^^^ (mul (xtime (a (r + 2))) 11 ^^^ mul (a (r + 2)) 11) ^^^ mul (xtime (a (r + 2))) 13 ^^^
        mul (a (r + 2)) 9) ^^^
      (mul (a (r + 3)) 14 ^^^ mul (a (r + 3)) 11 ^^^ (mul (xtime (a (r + 3))) 13 ^^^ mul (a (r + 3)) 13) ^^^
        mul (xtime (a (r + 3))) 9) := by
        generalize a r = a0, a (r + 1) = a1, a (r + 2) = a2, a (r + 3) = a3
        ac_rfl
    _ = a r := by rw [own, next, across, before, xor_zero, xor_zero, xor_zero]

variable {unsub : UInt8 → UInt8} {key : State}

theorem unmixColumns_mixColumns (s : State) : unmixColumns (mixColumns s) = s := by
  funext c
  exact unmixColumn_mixColumn (s c)

theorem unshift_shiftRows (inverse : ∀ x, unsub (sub x) = x) (s : State) :
    unshift unsub (shiftRows (subBytes s)) = s := by
  funext c r
  simp only [unshift, shiftRows, subBytes, inverse, sub_add_cancel]

theorem unrounds_rounds (inverse : ∀ x, unsub (sub x) = x) (n : Nat) (s : State) :
    unrounds unsub key (n + 1) (shiftRows (subBytes (rounds key n s))) = s := by
  induction n with
  | zero => simp only [unrounds, unround, rounds, unshift_shiftRows inverse, ne_eq, not_true_eq_false, if_false,
      xor_cancel_right]
  | succ n ih =>
    have back : unround unsub key (n + 1) (shiftRows (subBytes (rounds key (n + 1) s))) =
        shiftRows (subBytes (rounds key n s)) := by
      simp only [unround, unshift_shiftRows inverse, ne_eq, Nat.succ_ne_zero, not_false_eq_true, if_true, rounds,
        xor_cancel_right, unmixColumns_mixColumns]
    rw [unrounds, back, ih]

/-- Decryption undoes encryption. -/
theorem decryptBlock_encryptBlock (inverse : ∀ x, unsub (sub x) = x) (s : State) :
    decryptBlock unsub key (encryptBlock key s) = s := by
  rw [decryptBlock, encryptBlock, xor_cancel_right, unrounds_rounds inverse]

instance : Finite State := inferInstanceAs (Finite (Fin 8 → Fin 4 → UInt8))

/-- On finitely many blocks a left inverse is an inverse. -/
theorem encryptBlock_decryptBlock (inverse : ∀ x, unsub (sub x) = x) (s : State) :
    encryptBlock key (decryptBlock unsub key s) = s := by
  have left : Function.LeftInverse (decryptBlock unsub key) (encryptBlock key) := decryptBlock_encryptBlock inverse
  obtain ⟨plain, rfl⟩ := Finite.injective_iff_surjective.mp left.injective s
  rw [left plain]

end SiriusProxy.Rijndael
