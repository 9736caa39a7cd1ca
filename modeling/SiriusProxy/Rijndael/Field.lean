import SiriusProxy.Lib.Bytes
import Mathlib.Algebra.Group.MinimalAxioms
import Mathlib.Data.FinEnum
import Mathlib.GroupTheory.OrderOfElement

open Bytes

namespace SiriusProxy.Rijndael

/-- The next `a` of the loop in `mul`. -/
def xtime (a : UInt8) : UInt8 := (a <<< 1) ^^^ (if a &&& 128 ≠ 0 then 0x1b else 0)

def mulLoop : Nat → UInt8 → UInt8 → UInt8 → UInt8
  | 0, _, _, result => result
  | n + 1, a, b, result => mulLoop n (xtime a) (b >>> 1) (if b &&& 1 ≠ 0 then result ^^^ a else result)

def mul (a b : UInt8) : UInt8 := mulLoop 8 a b 0

theorem xtime_additive : Additive xtime := by
  have shift : Additive fun a => a <<< 1 := fun x y => UInt8.shiftLeft_xor
  exact shift.xor (Additive.switch (by decide) 0x1b)

theorem ifXor (c : Prop) [Decidable c] (r a : UInt8) : (if c then r ^^^ a else r) = r ^^^ (if c then a else 0) := by
  split
  · rfl
  · rw [UInt8.xor_zero]

theorem mulLoop_left (n : Nat) (a a' b r r' : UInt8) :
    mulLoop n (a ^^^ a') b (r ^^^ r') = mulLoop n a b r ^^^ mulLoop n a' b r' := by
  induction n generalizing a a' b r r' with
  | zero => rfl
  | succ n ih =>
    simp only [mulLoop, xtime_additive a a']
    rw [← ih]
    congr 1
    split
    · ac_rfl
    · rfl

theorem mulLoop_right (n : Nat) (a b b' r r' : UInt8) :
    mulLoop n a (b ^^^ b') (r ^^^ r') = mulLoop n a b r ^^^ mulLoop n a b' r' := by
  induction n generalizing a b b' r r' with
  | zero => rfl
  | succ n ih =>
    have switch := Additive.switch (m := 1) (by decide) a b b'
    simp only [mulLoop, UInt8.shiftRight_xor, ifXor _ _ a, ne_eq] at switch ⊢
    rw [← ih, switch]
    congr 1
    ac_rfl

theorem mul_left (b : UInt8) : Additive fun a => mul a b := fun x y => mulLoop_left 8 x y b 0 0

theorem mul_right (a : UInt8) : Additive fun b => mul a b := fun x y => mulLoop_right 8 a x y 0 0

theorem mul_one (a : UInt8) : mul a 1 = a := (mul_left 1).ext Additive.id (by decide +kernel) a

theorem mul_comm (a b : UInt8) : mul a b = mul b a :=
  Additive.ext₂ mul_left mul_right mul_right mul_left (by decide +kernel) a b

theorem mul_xtime (a b : UInt8) : mul a (xtime b) = xtime (mul a b) :=
  Additive.ext₂ (fun b => mul_left (xtime b)) (fun a => (mul_right a).comp xtime_additive)
    (fun b => xtime_additive.comp (mul_left b)) (fun a => xtime_additive.comp (mul_right a)) (by decide +kernel) a b

theorem mul_assoc (a b c : UInt8) : mul (mul a b) c = mul a (mul b c) := by
  have one : mul (mul a b) 1 = mul a (mul b 1) := by rw [mul_one, mul_one]
  have next : ∀ m, mul (mul a b) m = mul a (mul b m) → mul (mul a b) (xtime m) = mul a (mul b (xtime m)) := by
    intro m same
    rw [mul_xtime, mul_xtime, mul_xtime, same]
  refine (mul_right (mul a b)).ext ((mul_right a).comp (mul_right b)) (fun m single => ?_) c
  simp only [basis, List.mem_cons, List.not_mem_nil, or_false] at single
  -- Each of these bytes is `xtime` of the one before.
  have two := next 1 one
  have four := next _ two
  have eight := next _ four
  have sixteen := next _ eight
  have b32 := next _ sixteen
  have b64 := next _ b32
  have b128 := next _ b64
  rcases single with rfl | rfl | rfl | rfl | rfl | rfl | rfl | rfl
  · exact one
  · exact two
  · exact four
  · exact eight
  · exact sixteen
  · exact b32
  · exact b64
  · exact b128

/-- The inner loop of `boxes`. -/
def powLoop : Nat → UInt8 → UInt8 → UInt8
  | 0, x, _ => x
  | n + 1, x, i => powLoop n (mul x i) i

theorem powLoop_mul (n : Nat) (x y i : UInt8) : powLoop n (mul x y) i = mul x (powLoop n y i) := by
  induction n generalizing y with
  | zero => rfl
  | succ n ih => rw [powLoop, mul_assoc, ih, powLoop]

theorem powLoop_add (m n : Nat) (x i : UInt8) : powLoop (m + n) x i = powLoop n (powLoop m x i) i := by
  induction m generalizing x with
  | zero => rw [Nat.zero_add, powLoop]
  | succ m ih => rw [Nat.add_right_comm, powLoop, ih, powLoop]

/-- Powers from `1` add up. -/
theorem pow_add (m n : Nat) (i : UInt8) : powLoop (m + n) 1 i = mul (powLoop m 1 i) (powLoop n 1 i) := by
  rw [powLoop_add, ← powLoop_mul, mul_one]

/-- The substitution table of the cipher. -/
def sBox : List UInt8 :=
  [0x63, 0x7c, 0x77, 0x7b, 0xf2, 0x6b, 0x6f, 0xc5, 0x30, 0x01, 0x67, 0x2b, 0xfe, 0xd7, 0xab, 0x76,
    0xca, 0x82, 0xc9, 0x7d, 0xfa, 0x59, 0x47, 0xf0, 0xad, 0xd4, 0xa2, 0xaf, 0x9c, 0xa4, 0x72, 0xc0,
    0xb7, 0xfd, 0x93, 0x26, 0x36, 0x3f, 0xf7, 0xcc, 0x34, 0xa5, 0xe5, 0xf1, 0x71, 0xd8, 0x31, 0x15,
    0x04, 0xc7, 0x23, 0xc3, 0x18, 0x96, 0x05, 0x9a, 0x07, 0x12, 0x80, 0xe2, 0xeb, 0x27, 0xb2, 0x75,
    0x09, 0x83, 0x2c, 0x1a, 0x1b, 0x6e, 0x5a, 0xa0, 0x52, 0x3b, 0xd6, 0xb3, 0x29, 0xe3, 0x2f, 0x84,
    0x53, 0xd1, 0x00, 0xed, 0x20, 0xfc, 0xb1, 0x5b, 0x6a, 0xcb, 0xbe, 0x39, 0x4a, 0x4c, 0x58, 0xcf,
    0xd0, 0xef, 0xaa, 0xfb, 0x43, 0x4d, 0x33, 0x85, 0x45, 0xf9, 0x02, 0x7f, 0x50, 0x3c, 0x9f, 0xa8,
    0x51, 0xa3, 0x40, 0x8f, 0x92, 0x9d, 0x38, 0xf5, 0xbc, 0xb6, 0xda, 0x21, 0x10, 0xff, 0xf3, 0xd2,
    0xcd, 0x0c, 0x13, 0xec, 0x5f, 0x97, 0x44, 0x17, 0xc4, 0xa7, 0x7e, 0x3d, 0x64, 0x5d, 0x19, 0x73,
    0x60, 0x81, 0x4f, 0xdc, 0x22, 0x2a, 0x90, 0x88, 0x46, 0xee, 0xb8, 0x14, 0xde, 0x5e, 0x0b, 0xdb,
    0xe0, 0x32, 0x3a, 0x0a, 0x49, 0x06, 0x24, 0x5c, 0xc2, 0xd3, 0xac, 0x62, 0x91, 0x95, 0xe4, 0x79,
    0xe7, 0xc8, 0x37, 0x6d, 0x8d, 0xd5, 0x4e, 0xa9, 0x6c, 0x56, 0xf4, 0xea, 0x65, 0x7a, 0xae, 0x08,
    0xba, 0x78, 0x25, 0x2e, 0x1c, 0xa6, 0xb4, 0xc6, 0xe8, 0xdd, 0x74, 0x1f, 0x4b, 0xbd, 0x8b, 0x8a,
    0x70, 0x3e, 0xb5, 0x66, 0x48, 0x03, 0xf6, 0x0e, 0x61, 0x35, 0x57, 0xb9, 0x86, 0xc1, 0x1d, 0x9e,
    0xe1, 0xf8, 0x98, 0x11, 0x69, 0xd9, 0x8e, 0x94, 0x9b, 0x1e, 0x87, 0xe9, 0xce, 0x55, 0x28, 0xdf,
    0x8c, 0xa1, 0x89, 0x0d, 0xbf, 0xe6, 0x42, 0x68, 0x41, 0x99, 0x2d, 0x0f, 0xb0, 0x54, 0xbb, 0x16]

def sub (x : UInt8) : UInt8 := sBox.getD x.toNat 0

/-- `u8::rotate_left`. -/
def rotateLeft (x n : UInt8) : UInt8 := (x <<< n) ||| (x >>> (8 - n))

def affine (x : UInt8) : UInt8 :=
  x ^^^ rotateLeft x 1 ^^^ rotateLeft x 2 ^^^ rotateLeft x 3 ^^^ rotateLeft x 4 ^^^ 0x63

/-- The entry `i` that `boxes` computes. Multiplicative inverse `x^254`; zero maps to zero. -/
def sboxEntry (i : UInt8) : UInt8 := affine (powLoop 254 1 i)

def unaffine (y : UInt8) : UInt8 := rotateLeft y 1 ^^^ rotateLeft y 3 ^^^ rotateLeft y 6 ^^^ 0x05

theorem affine_unaffine (y : UInt8) : affine (unaffine y) = y := by
  have checked := all_spec (p := fun y => affine (unaffine y) == y) (by decide +kernel) y
  exact beq_iff_eq.mp checked

/-- The byte that the table sends through `affine`. -/
def inv (x : UInt8) : UInt8 := unaffine (sub x)

theorem mul_inv (x : UInt8) (nonzero : x ≠ 0) : mul x (inv x) = 1 := by
  have checked := all_table sBox (by decide +kernel) (p := fun x s => x == 0 || mul x (unaffine s) == 1)
    (by decide +kernel) x
  rw [Bool.or_eq_true, beq_iff_eq, beq_iff_eq] at checked
  exact checked.resolve_left nonzero

theorem mul_zero (a : UInt8) : mul a 0 = 0 := (mul_right a).zero

theorem zero_mul (a : UInt8) : mul 0 a = 0 := (mul_left a).zero

theorem inv_ne_zero (x : UInt8) (nonzero : x ≠ 0) : inv x ≠ 0 := by
  intro zero
  have one := mul_inv x nonzero
  rw [zero, mul_zero] at one
  exact absurd one (by decide)

theorem mul_ne_zero {x y : UInt8} (left : x ≠ 0) (right : y ≠ 0) : mul x y ≠ 0 := by
  intro zero
  have cancelled : mul (mul x y) (inv y) = x := by rw [mul_assoc, mul_inv y right, mul_one]
  rw [zero, zero_mul] at cancelled
  exact left cancelled.symm

/-- The nonzero bytes form a group of order 255. -/
@[ext]
structure NonZero where
  value : UInt8
  nonzero : value ≠ 0

instance : Mul NonZero := ⟨fun x y => ⟨mul x.value y.value, mul_ne_zero x.nonzero y.nonzero⟩⟩

instance : One NonZero := ⟨⟨1, by decide⟩⟩

instance : Inv NonZero := ⟨fun x => ⟨inv x.value, inv_ne_zero x.value x.nonzero⟩⟩

instance : Group NonZero := by
  refine Group.ofLeftAxioms (fun x y z => ?_) (fun x => ?_) (fun x => ?_)
  · exact NonZero.ext (mul_assoc x.value y.value z.value)
  · refine NonZero.ext ?_
    change mul 1 x.value = x.value
    rw [mul_comm, mul_one]
  · refine NonZero.ext ?_
    change mul (inv x.value) x.value = 1
    rw [mul_comm, mul_inv x.value x.nonzero]

def nonZeroEquiv : { x : UInt8 // ¬x = 0 } ≃ NonZero where
  toFun x := ⟨x.1, x.2⟩
  invFun x := ⟨x.value, x.nonzero⟩
  left_inv _ := rfl
  right_inv _ := rfl

instance : Fintype NonZero := Fintype.ofEquiv _ nonZeroEquiv

theorem card_nonZero : Fintype.card NonZero = 255 := by
  have bytes : Fintype.card UInt8 = 256 := by rw [← FinEnum.card_eq_fintypeCard]; rfl
  have others := Fintype.card_subtype_compl fun x : UInt8 => x = 0
  rw [Fintype.card_subtype_eq, bytes] at others
  exact (Fintype.card_congr nonZeroEquiv).symm.trans others

theorem powLoop_succ (n : Nat) (i : UInt8) : powLoop (n + 1) 1 i = mul (powLoop n 1 i) i := by
  rw [pow_add, powLoop, powLoop, mul_comm 1, mul_one]

theorem pow_value (x : NonZero) (n : Nat) : (x ^ n).value = powLoop n 1 x.value := by
  induction n with
  | zero =>
    rw [pow_zero]
    rfl
  | succ n ih =>
    rw [pow_succ, powLoop_succ, ← ih]
    rfl

/-- `x^254` is the inverse. -/
theorem powLoop_inv (x : UInt8) (nonzero : x ≠ 0) : powLoop 254 1 x = inv x := by
  have full : powLoop 255 1 x = 1 := by
    have order : (⟨x, nonzero⟩ : NonZero) ^ 255 = 1 := by rw [← card_nonZero, pow_card_eq_one]
    rw [← pow_value ⟨x, nonzero⟩, order]
    rfl
  rw [powLoop_succ] at full
  calc powLoop 254 1 x = mul (powLoop 254 1 x) (mul x (inv x)) := by rw [mul_inv x nonzero, mul_one]
    _ = mul 1 (inv x) := by rw [← mul_assoc, full]
    _ = inv x := by rw [mul_comm, mul_one]

/-- `boxes` computes the table. -/
theorem sboxEntry_eq (i : UInt8) : sboxEntry i = sub i := by
  by_cases nonzero : i = 0
  · subst nonzero
    rw [sboxEntry, powLoop_succ, mul_zero]
    decide +kernel
  · rw [sboxEntry, powLoop_inv i nonzero, inv, affine_unaffine]

theorem sub_injective : Function.Injective sub := by
  intro x y same
  have equal : inv x = inv y := by rw [inv, inv, same]
  by_cases left : x = 0
  · by_cases right : y = 0
    · rw [left, right]
    · have zero : inv 0 = 0 := by decide +kernel
      rw [left, zero] at equal
      exact absurd equal.symm (inv_ne_zero y right)
  · by_cases right : y = 0
    · have zero : inv 0 = 0 := by decide +kernel
      rw [right, zero] at equal
      exact absurd equal (inv_ne_zero x left)
    · calc x = mul x (mul (inv y) y) := by rw [mul_comm (inv y), mul_inv y right, mul_one]
        _ = mul (mul x (inv x)) y := by rw [mul_assoc, equal]
        _ = y := by rw [mul_inv x left, mul_comm, mul_one]

end SiriusProxy.Rijndael
