import SiriusProxy.Lib.Bytes

/-! The URL alphabet of Base64 without padding, where bits left over are zero. -/
namespace Base64

/-- The character of six bits. -/
def symbol (n : Nat) : UInt8 :=
  if n < 26 then UInt8.ofNat (65 + n)
  else if n < 52 then UInt8.ofNat (71 + n)
  else if n < 62 then UInt8.ofNat (n - 4)
  else if n = 62 then 45 else 95

def value (b : UInt8) : Option Nat :=
  if 65 ≤ b ∧ b ≤ 90 then some (b.toNat - 65)
  else if 97 ≤ b ∧ b ≤ 122 then some (b.toNat - 71)
  else if 48 ≤ b ∧ b ≤ 57 then some (b.toNat + 4)
  else if b = 45 then some 62
  else if b = 95 then some 63 else none

def encode : List UInt8 → List UInt8
  | [] => []
  | [a] => [symbol (a.toNat / 4), symbol (a.toNat % 4 * 16)]
  | [a, b] => [symbol (a.toNat / 4), symbol (a.toNat % 4 * 16 + b.toNat / 16), symbol (b.toNat % 16 * 4)]
  | a :: b :: c :: rest =>
    symbol (a.toNat / 4) :: symbol (a.toNat % 4 * 16 + b.toNat / 16) :: symbol (b.toNat % 16 * 4 + c.toNat / 64) ::
      symbol (c.toNat % 64) :: encode rest

def byte (n : Nat) : UInt8 := UInt8.ofNat n

def decode : List UInt8 → Option (List UInt8)
  | [] => some []
  | [_] => none
  | [a, b] =>
    match value a, value b with
    | some x, some y => if y % 16 = 0 then some [byte (x * 4 + y / 16)] else none
    | _, _ => none
  | [a, b, c] =>
    match value a, value b, value c with
    | some x, some y, some z =>
      if z % 4 = 0 then some [byte (x * 4 + y / 16), byte (y % 16 * 16 + z / 4)] else none
    | _, _, _ => none
  | a :: b :: c :: d :: rest =>
    match value a, value b, value c, value d, decode rest with
    | some x, some y, some z, some t, some more =>
      some (byte (x * 4 + y / 16) :: byte (y % 16 * 16 + z / 4) :: byte (z % 4 * 64 + t) :: more)
    | _, _, _, _, _ => none

theorem value_symbol {n : Nat} (bound : n < 64) : value (symbol n) = some n := by
  have all : ∀ n < 64, value (symbol n) = some n := by decide +kernel
  exact all n bound

theorem symbol_value {b : UInt8} {n : Nat} (known : value b = some n) : symbol n = b ∧ n < 64 := by
  have all : Bytes.all (fun b => (value b).all fun n => symbol n == b && decide (n < 64)) = true := by decide +kernel
  have here := Bytes.all_spec all b
  rw [known, Option.all_some, Bool.and_eq_true, beq_iff_eq, decide_eq_true_iff] at here
  exact here

theorem byte_toNat {n : Nat} (b : UInt8) (same : n = b.toNat) : byte n = b := by
  rw [same]
  exact UInt8.ofNat_toNat

theorem toNat_byte {n : Nat} (bound : n < 256) : (byte n).toNat = n := by
  exact UInt8.toNat_ofNat_of_lt' bound

theorem decode_encode (bytes : List UInt8) : decode (encode bytes) = some bytes := by
  induction bytes using encode.induct with
  | case1 => rfl
  | case2 a =>
    have ha := a.toNat_lt
    simp only [encode, decode]
    rw [value_symbol (by omega), value_symbol (by omega)]
    simp only
    rw [if_pos (by omega), byte_toNat a (by omega)]
  | case3 a b =>
    have ha := a.toNat_lt
    have hb := b.toNat_lt
    simp only [encode, decode]
    rw [value_symbol (by omega), value_symbol (by omega), value_symbol (by omega)]
    simp only
    rw [if_pos (by omega), byte_toNat a (by omega), byte_toNat b (by omega)]
  | case4 a b c rest ih =>
    have ha := a.toNat_lt
    have hb := b.toNat_lt
    have hc := c.toNat_lt
    simp only [encode, decode]
    rw [value_symbol (by omega), value_symbol (by omega), value_symbol (by omega), value_symbol (by omega), ih]
    simp only
    rw [byte_toNat a (by omega), byte_toNat b (by omega), byte_toNat c (by omega)]

theorem encode_pair {x y : Nat} (bx : x < 64) (bY : y < 64) (zero : y % 16 = 0) :
    encode [byte (x * 4 + y / 16)] = [symbol x, symbol y] := by
  rw [encode, toNat_byte (by omega), show (x * 4 + y / 16) / 4 = x by omega, show (x * 4 + y / 16) % 4 * 16 = y by omega]

theorem encode_triple {x y z : Nat} (bx : x < 64) (bY : y < 64) (bz : z < 64) (zero : z % 4 = 0) :
    encode [byte (x * 4 + y / 16), byte (y % 16 * 16 + z / 4)] = [symbol x, symbol y, symbol z] := by
  rw [encode, toNat_byte (by omega), toNat_byte (by omega), show (x * 4 + y / 16) / 4 = x by omega,
    show (x * 4 + y / 16) % 4 * 16 + (y % 16 * 16 + z / 4) / 16 = y by omega,
    show (y % 16 * 16 + z / 4) % 16 * 4 = z by omega]

theorem encode_group {x y z t : Nat} (bx : x < 64) (bY : y < 64) (bz : z < 64) (bt : t < 64) (rest : List UInt8) :
    encode (byte (x * 4 + y / 16) :: byte (y % 16 * 16 + z / 4) :: byte (z % 4 * 64 + t) :: rest) =
      symbol x :: symbol y :: symbol z :: symbol t :: encode rest := by
  rw [encode, toNat_byte (by omega), toNat_byte (by omega), toNat_byte (by omega), show (x * 4 + y / 16) / 4 = x by omega,
    show (x * 4 + y / 16) % 4 * 16 + (y % 16 * 16 + z / 4) / 16 = y by omega,
    show (y % 16 * 16 + z / 4) % 16 * 4 + (z % 4 * 64 + t) / 64 = z by omega, show (z % 4 * 64 + t) % 64 = t by omega]

/-- Nothing but the encoding of the bytes is read as them. -/
theorem encode_of_decode {text bytes : List UInt8} (read : decode text = some bytes) : encode bytes = text := by
  induction text using decode.induct generalizing bytes with
  | case1 =>
    cases read
    rfl
  | case2 a => cases read
  | case3 a b x y hy hx zero =>
    simp only [decode, hx, hy, if_pos zero] at read
    cases read
    obtain ⟨rfl, bx⟩ := symbol_value hx
    obtain ⟨rfl, bY⟩ := symbol_value hy
    exact encode_pair bx bY zero
  | case4 a b x y hy hx zero =>
    simp only [decode, hx, hy, if_neg zero] at read
    cases read
  | case5 a b other =>
    rw [decode] at read
    split at read
    · rename_i x y hx hy
      exact absurd hy (other x y hx)
    · cases read
  | case6 a b c x y z hz hy hx zero =>
    simp only [decode, hx, hy, hz, if_pos zero] at read
    cases read
    obtain ⟨rfl, bx⟩ := symbol_value hx
    obtain ⟨rfl, bY⟩ := symbol_value hy
    obtain ⟨rfl, bz⟩ := symbol_value hz
    exact encode_triple bx bY bz zero
  | case7 a b c x y z hz hy hx zero =>
    simp only [decode, hx, hy, hz, if_neg zero] at read
    cases read
  | case8 a b c other =>
    rw [decode] at read
    split at read
    · rename_i x y z hx hy hz
      exact absurd hz (other x y z hx hy)
    · cases read
  | case9 a b c d rest x y z t more found ht hz hy hx ih =>
    simp only [decode, hx, hy, hz, ht, found] at read
    cases read
    obtain ⟨rfl, bx⟩ := symbol_value hx
    obtain ⟨rfl, bY⟩ := symbol_value hy
    obtain ⟨rfl, bz⟩ := symbol_value hz
    obtain ⟨rfl, bt⟩ := symbol_value ht
    rw [encode_group bx bY bz bt, ih found]
  | case10 a b c d rest other ih =>
    rw [decode] at read
    split at read
    · rename_i x y z t more hx hy hz ht found
      exact absurd found (other x y z t more hx hy hz ht)
    · cases read

theorem encode_symbol (bytes : List UInt8) : ∀ b ∈ encode bytes, ∃ n < 64, b = symbol n := by
  induction bytes using encode.induct with
  | case1 => exact fun b member => absurd member List.not_mem_nil
  | case2 a =>
    have ha := a.toNat_lt
    simp only [encode, List.forall_mem_cons]
    exact ⟨⟨_, by omega, rfl⟩, ⟨_, by omega, rfl⟩, fun b member => absurd member List.not_mem_nil⟩
  | case3 a b =>
    have ha := a.toNat_lt
    have hb := b.toNat_lt
    simp only [encode, List.forall_mem_cons]
    exact ⟨⟨_, by omega, rfl⟩, ⟨_, by omega, rfl⟩, ⟨_, by omega, rfl⟩, fun b member => absurd member List.not_mem_nil⟩
  | case4 a b c rest ih =>
    have ha := a.toNat_lt
    have hb := b.toNat_lt
    have hc := c.toNat_lt
    simp only [encode, List.forall_mem_cons]
    exact ⟨⟨_, by omega, rfl⟩, ⟨_, by omega, rfl⟩, ⟨_, by omega, rfl⟩, ⟨_, by omega, rfl⟩, ih⟩

/-- A byte outside of the alphabet does not occur. -/
theorem not_mem_encode {bytes : List UInt8} {b : UInt8} (outside : value b = none) : b ∉ encode bytes := by
  intro member
  obtain ⟨n, bound, rfl⟩ := encode_symbol bytes b member
  rw [value_symbol bound] at outside
  cases outside

end Base64
