import Mathlib.Data.LawfulXor.Basic
import Mathlib.Data.List.Basic

namespace Cbc
universe u

section Chunks
variable {α : Type u} {n : Nat} {xs : List α} {blocks : List (List α)}

/-- The first `count` pieces of length `n`. -/
def chunks (n : Nat) : Nat → List α → List (List α)
  | 0, _ => []
  | count + 1, xs => xs.take n :: chunks n count (xs.drop n)

theorem length_chunks (count : Nat) : (chunks n count xs).length = count := by
  induction count generalizing xs with
  | zero => rfl
  | succ count ih => rw [chunks, List.length_cons, ih]

theorem flatten_chunks (count : Nat) : (chunks n count xs).flatten = xs.take (count * n) := by
  induction count generalizing xs with
  | zero => rw [Nat.zero_mul, List.take_zero, chunks, List.flatten_nil]
  | succ count ih => rw [chunks, List.flatten_cons, ih, Nat.succ_mul, Nat.add_comm, List.take_add]

theorem length_of_mem_chunks {count : Nat} (enough : count * n ≤ xs.length) :
    ∀ block ∈ chunks n count xs, block.length = n := by
  induction count generalizing xs with
  | zero => exact fun block none => absurd none List.not_mem_nil
  | succ count ih =>
    rw [Nat.succ_mul] at enough
    intro block member
    rcases List.mem_cons.mp member with rfl | later
    · rw [List.length_take]
      omega
    · refine ih ?_ block later
      rw [List.length_drop]
      omega

theorem chunks_flatten (sized : ∀ block ∈ blocks, block.length = n) :
    chunks n blocks.length blocks.flatten = blocks := by
  induction blocks with
  | nil => rfl
  | cons block rest ih =>
    have size := sized block List.mem_cons_self
    rw [List.length_cons, chunks, List.flatten_cons, ← size, List.take_left, List.drop_left, size,
      ih fun other member => sized other (List.mem_cons_of_mem _ member)]

theorem length_flatten (sized : ∀ block ∈ blocks, block.length = n) : blocks.flatten.length = blocks.length * n := by
  induction blocks with
  | nil => rw [List.flatten_nil, List.length_nil, List.length_nil, Nat.zero_mul]
  | cons block rest ih =>
    rw [List.flatten_cons, List.length_append, sized block List.mem_cons_self, List.length_cons, Nat.succ_mul,
      ih fun other member => sized other (List.mem_cons_of_mem _ member), Nat.add_comm]

end Chunks

section Chaining
variable {B : Type u} [XorOp B] {E D : B → B}

/-- Every block is combined with the ciphertext before it. -/
def encrypt (E : B → B) : B → List B → List B
  | _, [] => []
  | previous, plain :: rest => E (plain ^^^ previous) :: encrypt E (E (plain ^^^ previous)) rest

def decrypt (D : B → B) : B → List B → List B
  | _, [] => []
  | previous, cipher :: rest => (D cipher ^^^ previous) :: decrypt D cipher rest

theorem length_encrypt (iv : B) (text : List B) : (encrypt E iv text).length = text.length := by
  induction text generalizing iv with
  | nil => rfl
  | cons plain rest ih => rw [encrypt, List.length_cons, ih, List.length_cons]

theorem length_decrypt (iv : B) (text : List B) : (decrypt D iv text).length = text.length := by
  induction text generalizing iv with
  | nil => rfl
  | cons cipher rest ih => rw [decrypt, List.length_cons, ih, List.length_cons]

variable [Zero B] [LawfulXor B]

theorem decrypt_encrypt (inverse : ∀ b, D (E b) = b) (iv : B) (text : List B) :
    decrypt D iv (encrypt E iv text) = text := by
  induction text generalizing iv with
  | nil => rfl
  | cons plain rest ih => rw [encrypt, decrypt, inverse, xor_cancel_right, ih]

theorem encrypt_decrypt (inverse : ∀ b, E (D b) = b) (iv : B) (text : List B) :
    encrypt E iv (decrypt D iv text) = text := by
  induction text generalizing iv with
  | nil => rfl
  | cons cipher rest ih => rw [decrypt, encrypt, xor_cancel_right, inverse, ih]

end Chaining

section Padding
variable {n : Nat} {bytes text : List UInt8}

/-- How many bytes the text lacks to the next multiple of `n`; a whole block when it is one. -/
def missing (n : Nat) (text : List UInt8) : Nat := n - text.length % n

/-- PKCS #7. -/
def pad (n : Nat) (text : List UInt8) : List UInt8 :=
  text ++ List.replicate (missing n text) (UInt8.ofNat (missing n text))

/-- The bytes end in one to `n` bytes that state their number. -/
def Padded (n : Nat) (bytes : List UInt8) : Prop :=
  ∃ count text, 1 ≤ count ∧ count ≤ n ∧ bytes = text ++ List.replicate count (UInt8.ofNat count)

theorem missing_bounds (text : List UInt8) (positive : 0 < n) : 1 ≤ missing n text ∧ missing n text ≤ n := by
  have rest := Nat.mod_lt text.length positive
  unfold missing
  omega

theorem length_pad (positive : 0 < n) : (pad n text).length % n = 0 := by
  have rest := Nat.mod_lt text.length positive
  rw [pad, List.length_append, List.length_replicate, missing]
  have whole : text.length + (n - text.length % n) = n * (text.length / n) + n := by
    have split := Nat.div_add_mod text.length n
    omega
  rw [whole, Nat.mul_add_mod, Nat.mod_self]

/-- The number of padding bytes of a whole number of blocks is what the text lacks. -/
theorem missing_of_length {count : Nat} (some : 1 ≤ count) (most : count ≤ n)
    (whole : (text.length + count) % n = 0) : missing n text = count := by
  have rest := Nat.mod_lt text.length (Nat.lt_of_lt_of_le some most)
  rw [Nat.add_mod] at whole
  rcases Nat.lt_or_ge count n with less | equal
  · rw [Nat.mod_eq_of_lt less] at whole
    have sum : text.length % n + count = n := by
      rcases Nat.lt_or_ge (text.length % n + count) n with below | above
      · rw [Nat.mod_eq_of_lt below] at whole
        omega
      · rw [Nat.mod_eq_sub_mod above, Nat.mod_eq_of_lt (by omega)] at whole
        omega
    rw [missing]
    omega
  · have same : count = n := Nat.le_antisymm most equal
    subst same
    rw [Nat.mod_self, Nat.add_zero, Nat.mod_mod] at whole
    rw [missing, whole, Nat.sub_zero]

end Padding

end Cbc
