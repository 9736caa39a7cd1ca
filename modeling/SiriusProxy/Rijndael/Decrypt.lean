import SiriusProxy.Rijndael.Block

open Cbc SiriusProxy.Master

namespace SiriusProxy.Rijndael

/-- The blocks of a text. -/
def blocks (bytes : List UInt8) : List State := (chunks 32 (bytes.length / 32) bytes).map ofBytes

def bytesOf (list : List State) : List UInt8 := (list.map toBytes).flatten

/-- Encryption with chaining of a text of whole blocks. -/
def cbcEncrypt (key iv : Vector UInt8 32) (text : List UInt8) : List UInt8 :=
  bytesOf (Cbc.encrypt (encryptBlock (ofBytes key.toList)) (ofBytes iv.toList) (blocks text))

theorem toBytes_sized (list : List State) : ∀ block ∈ list.map toBytes, block.length = 32 := by
  intro block member
  obtain ⟨s, -, rfl⟩ := List.mem_map.mp member
  exact length_toBytes s

theorem bytesOf_cons (s : State) (list : List State) : bytesOf (s :: list) = toBytes s ++ bytesOf list := rfl

theorem length_bytesOf (list : List State) : (bytesOf list).length = list.length * 32 := by
  rw [bytesOf, length_flatten (toBytes_sized list), List.length_map]

theorem blocks_bytesOf (list : List State) : blocks (bytesOf list) = list := by
  have count : (bytesOf list).length / 32 = (list.map toBytes).length := by
    rw [length_bytesOf, List.length_map, Nat.mul_div_cancel _ (by decide)]
  have back : list.map (fun s => ofBytes (toBytes s)) = list := by
    rw [List.map_congr_left fun s _ => ofBytes_toBytes s, List.map_id']
  rw [blocks, count, bytesOf, chunks_flatten (toBytes_sized list), List.map_map]
  exact back

theorem blocks_toBytes (bytes : List UInt8) :
    (blocks bytes).map toBytes = chunks 32 (bytes.length / 32) bytes := by
  have sized : ∀ block ∈ chunks 32 (bytes.length / 32) bytes, block.length = 32 :=
    length_of_mem_chunks (Nat.div_mul_le_self _ _)
  have back : (chunks 32 (bytes.length / 32) bytes).map (fun block => toBytes (ofBytes block)) =
      chunks 32 (bytes.length / 32) bytes := by
    rw [List.map_congr_left fun block member => toBytes_ofBytes (sized block member), List.map_id']
  rw [blocks, List.map_map]
  exact back

theorem bytesOf_blocks {bytes : List UInt8} (whole : bytes.length % 32 = 0) : bytesOf (blocks bytes) = bytes := by
  have all : bytes.length / 32 * 32 = bytes.length := Nat.div_mul_cancel (Nat.dvd_of_mod_eq_zero whole)
  rw [bytesOf, blocks_toBytes, flatten_chunks, all, List.take_length]

variable {key : State} {unsub : UInt8 → UInt8} {cipher : Rijndael256}

/-- The loop over the blocks. -/
theorem decryptNext_loop (built : Built key unsub cipher) (list : List State) (previous : State) (output : List UInt8) :
    ∃ last, loop cipher.decryptNext (list.map toBytes) (toBytes previous, output) =
      some (last, output ++ bytesOf (Cbc.decrypt (decryptBlock unsub key) previous list)) := by
  induction list generalizing previous output with
  | nil =>
    refine ⟨toBytes previous, ?_⟩
    rw [Cbc.decrypt, bytesOf, List.map_nil, List.flatten_nil, List.append_nil, loop]
  | cons c rest ih =>
    have combined : List.zipWith (· ^^^ ·) (toBytes (decryptBlock unsub key c)) (toBytes previous) =
        toBytes (decryptBlock unsub key c ^^^ previous) := rfl
    obtain ⟨last, ran⟩ := ih c (output ++ toBytes (decryptBlock unsub key c ^^^ previous))
    refine ⟨last, ?_⟩
    rw [List.map_cons, loop, Rijndael256.decryptNext, block_eq built]
    simp only [Option.bind_eq_bind, Option.bind_some, combined, ran]
    rw [Cbc.decrypt, bytesOf_cons, List.append_assoc]

/-- A text that states its padding is accepted without it. -/
theorem unpad_padded {text : List UInt8} {count : Nat} (least : 1 ≤ count) (most : count ≤ 32) :
    Rijndael256.unpad (text ++ List.replicate count (UInt8.ofNat count)) = some (.ok text) := by
  have number : (UInt8.ofNat count).toNat = count := by
    rw [UInt8.toNat_ofNat', Nat.mod_eq_of_lt (by omega)]
  have last : (text ++ List.replicate count (UInt8.ofNat count)).getLast? = some (UInt8.ofNat count) := by
    rw [List.getLast?_append_of_ne_nil _ (by rw [ne_eq, List.replicate_eq_nil_iff]; omega), List.getLast?_replicate,
      if_neg (by omega)]
  have length : (text ++ List.replicate count (UInt8.ofNat count)).length = text.length + count := by
    rw [List.length_append, List.length_replicate]
  have start : checkedSub (text ++ List.replicate count (UInt8.ofNat count)).length count = some text.length := by
    rw [length, checkedSub_eq (by omega), Nat.add_sub_cancel]
  have padding : sliceFrom (text ++ List.replicate count (UInt8.ofNat count)) text.length =
      some (List.replicate count (UInt8.ofNat count)) := by
    rw [sliceFrom, if_pos (by rw [length]; omega), List.drop_left]
  have equal : (List.replicate count (UInt8.ofNat count)).all (fun b => decide (b.toNat = count)) = true := by
    refine List.all_eq_true.mpr fun b member => ?_
    rw [List.eq_of_mem_replicate member, number, decide_eq_true rfl]
  simp only [Rijndael256.unpad, last, number, least, most, and_self, if_true, start, padding, equal,
    Option.bind_eq_bind, Option.bind_some, List.take_left]

/-- Otherwise the padding is refused, within range. -/
theorem unpad_refused {output : List UInt8} (whole : output.length % 32 = 0) (refused : ¬Padded 32 output) :
    Rijndael256.unpad output = some (.error .cipher) := by
  unfold Rijndael256.unpad
  cases last : output.getLast? with
  | none => rfl
  | some b =>
    simp only
    by_cases range : 1 ≤ b.toNat ∧ b.toNat ≤ 32
    · rw [if_pos range]
      have nonempty : output ≠ [] := by
        intro none
        rw [none] at last
        cases last
      have long : 32 ≤ output.length := by
        have positive := List.length_pos_iff.mpr nonempty
        omega
      simp only [checkedSub_eq (show b.toNat ≤ output.length by omega), sliceFrom,
        if_pos (show output.length - b.toNat ≤ output.length by omega), Option.bind_eq_bind, Option.bind_some]
      split
      · rename_i equal
        refine absurd ⟨b.toNat, output.take (output.length - b.toNat), range.1, range.2, ?_⟩ refused
        have tail : output.drop (output.length - b.toNat) = List.replicate b.toNat (UInt8.ofNat b.toNat) := by
          refine List.eq_replicate_iff.mpr ⟨by rw [List.length_drop]; omega, fun c member => ?_⟩
          have same := of_decide_eq_true (List.all_eq_true.mp equal c member)
          rw [← same, UInt8.ofNat_toNat]
        rw [← tail, List.take_append_drop]
      · rfl
    · rw [if_neg range]

/-- The text of a ciphertext of whole blocks. -/
theorem decrypt_eq {iv : Vector UInt8 32} (built : Built key unsub cipher) {c : List UInt8} (some_block : c ≠ [])
    (whole : c.length % 32 = 0) :
    cipher.decrypt c iv =
      Rijndael256.unpad (bytesOf (Cbc.decrypt (decryptBlock unsub key) (ofBytes iv.toList) (blocks c))) := by
  obtain ⟨last, ran⟩ := decryptNext_loop built (blocks c) (ofBytes iv.toList) []
  rw [blocks_toBytes, toBytes_ofBytes iv.length_toList, List.nil_append] at ran
  rw [Rijndael256.decrypt, if_neg (by
    rintro (none | uneven)
    · exact some_block none
    · exact uneven whole), asChunks, ran]
  rfl

section Exact
variable {iv key32 : Vector UInt8 32}

/-- What the inverse cipher makes of the blocks of a ciphertext. -/
def plainOf (unsub : UInt8 → UInt8) (key32 iv : Vector UInt8 32) (c : List UInt8) : List UInt8 :=
  bytesOf (Cbc.decrypt (decryptBlock unsub (ofBytes key32.toList)) (ofBytes iv.toList) (blocks c))

theorem length_plainOf {c : List UInt8} (whole : c.length % 32 = 0) : (plainOf unsub key32 iv c).length = c.length := by
  have all : c.length / 32 * 32 = c.length := Nat.div_mul_cancel (Nat.dvd_of_mod_eq_zero whole)
  rw [plainOf, length_bytesOf, Cbc.length_decrypt, blocks, List.length_map, length_chunks, all]

theorem length_cbcEncrypt {text : List UInt8} (whole : text.length % 32 = 0) :
    (cbcEncrypt key32 iv text).length = text.length := by
  have all : text.length / 32 * 32 = text.length := Nat.div_mul_cancel (Nat.dvd_of_mod_eq_zero whole)
  rw [cbcEncrypt, length_bytesOf, Cbc.length_encrypt, blocks, List.length_map, length_chunks, all]

theorem plainOf_cbcEncrypt (undoes : ∀ x, unsub (sub x) = x) {text : List UInt8} (whole : text.length % 32 = 0) :
    plainOf unsub key32 iv (cbcEncrypt key32 iv text) = text := by
  rw [plainOf, cbcEncrypt, blocks_bytesOf, Cbc.decrypt_encrypt (decryptBlock_encryptBlock undoes), bytesOf_blocks whole]

theorem cbcEncrypt_plainOf (undoes : ∀ x, unsub (sub x) = x) {c : List UInt8} (whole : c.length % 32 = 0) :
    cbcEncrypt key32 iv (plainOf unsub key32 iv c) = c := by
  rw [plainOf, cbcEncrypt, blocks_bytesOf, Cbc.encrypt_decrypt (encryptBlock_decryptBlock undoes), bytesOf_blocks whole]

/-- The padding of whole blocks is the one that `pad` adds. -/
theorem padded_eq {bytes : List UInt8} (whole : bytes.length % 32 = 0) (padded : Padded 32 bytes) :
    ∃ text, bytes = pad 32 text := by
  obtain ⟨count, text, least, most, rfl⟩ := padded
  rw [List.length_append, List.length_replicate] at whole
  exact ⟨text, by rw [pad, missing_of_length least most whole]⟩

theorem unpad_pad (text : List UInt8) : Rijndael256.unpad (pad 32 text) = some (.ok text) := by
  obtain ⟨least, most⟩ := missing_bounds text (n := 32) (by decide)
  exact unpad_padded least most

/-- Decryption is the exact inverse of the chained cipher with padding: it gives the text back, accepts
nothing else, and neither it nor the key schedule leaves the range of an index. -/
theorem decrypt_exact (key iv : Vector UInt8 32) : ∃ cipher, Rijndael256.new key = some cipher ∧
    (∀ p, cipher.decrypt (cbcEncrypt key iv (pad 32 p)) iv = some (.ok p)) ∧
    (∀ c p, cipher.decrypt c iv = some (.ok p) → c = cbcEncrypt key iv (pad 32 p)) ∧
    (∀ c d p, cipher.decrypt c iv = some (.ok p) → cipher.decrypt d iv = some (.ok p) → c = d) ∧
    (∀ c e, cipher.decrypt c iv = some (.error e) ↔ e = .cipher ∧
      (c = [] ∨ c.length % 32 ≠ 0 ∨
        ∃ text, text.length % 32 = 0 ∧ cbcEncrypt key iv text = c ∧ ¬Padded 32 text)) ∧
    ∀ c, ∃ result, cipher.decrypt c iv = some result := by
  obtain ⟨cipher, unsub, new, built⟩ := new_eq key
  have undoes := built.undoes
  -- What decryption does on whole blocks: the text without its padding, or a refusal.
  have outcome : ∀ c, c ≠ [] → c.length % 32 = 0 →
      (∃ p, plainOf unsub key iv c = pad 32 p ∧ cipher.decrypt c iv = some (.ok p)) ∨
        ¬Padded 32 (plainOf unsub key iv c) ∧ cipher.decrypt c iv = some (.error .cipher) := by
    intro c some_block whole
    have plain_whole : (plainOf unsub key iv c).length % 32 = 0 := by rw [length_plainOf whole]; exact whole
    rw [decrypt_eq built some_block whole, ← plainOf]
    by_cases padded : Padded 32 (plainOf unsub key iv c)
    · obtain ⟨p, same⟩ := padded_eq plain_whole padded
      exact Or.inl ⟨p, same, by rw [same, unpad_pad]⟩
    · exact Or.inr ⟨padded, unpad_refused plain_whole padded⟩
  have accepted : ∀ c p, cipher.decrypt c iv = some (.ok p) → c = cbcEncrypt key iv (pad 32 p) := by
    intro c p ok
    by_cases none : c = [] ∨ c.length % 32 ≠ 0
    · rw [Rijndael256.decrypt, if_pos none] at ok
      cases ok
    · obtain ⟨some_block, whole⟩ := not_or.mp none
      rcases outcome c some_block (not_not.mp whole) with ⟨q, same, ran⟩ | ⟨-, ran⟩
      · rw [ran] at ok
        cases ok
        rw [← same, cbcEncrypt_plainOf undoes (not_not.mp whole)]
      · rw [ran] at ok
        cases ok
  refine ⟨cipher, new, fun p => ?_, accepted, fun c d p left right => ?_, fun c e => ?_, fun c => ?_⟩
  · have whole : (pad 32 p).length % 32 = 0 := length_pad (by decide)
    have least := (missing_bounds p (n := 32) (by decide)).1
    have some_block : cbcEncrypt key iv (pad 32 p) ≠ [] := by
      intro none
      have length : (cbcEncrypt key iv (pad 32 p)).length = (pad 32 p).length := length_cbcEncrypt whole
      rw [none, List.length_nil, pad, List.length_append, List.length_replicate] at length
      omega
    have cipher_whole : (cbcEncrypt key iv (pad 32 p)).length % 32 = 0 := by rw [length_cbcEncrypt whole]; exact whole
    rw [decrypt_eq built some_block cipher_whole, ← plainOf, plainOf_cbcEncrypt undoes whole, unpad_pad]
  · rw [accepted c p left, accepted d p right]
  · by_cases none : c = [] ∨ c.length % 32 ≠ 0
    · rw [Rijndael256.decrypt, if_pos none]
      constructor
      · rintro ⟨⟩
        exact ⟨rfl, none.imp_right Or.inl⟩
      · rintro ⟨rfl, -⟩
        rfl
    · obtain ⟨some_block, uneven⟩ := not_or.mp none
      have whole := not_not.mp uneven
      constructor
      · intro refused
        rcases outcome c some_block whole with ⟨q, -, ran⟩ | ⟨unpadded, ran⟩
        · rw [ran] at refused
          cases refused
        · rw [ran] at refused
          cases refused
          exact ⟨rfl, Or.inr (Or.inr ⟨plainOf unsub key iv c, by rw [length_plainOf whole]; exact whole,
            cbcEncrypt_plainOf undoes whole, unpadded⟩)⟩
      · rintro ⟨rfl, empty | odd | ⟨text, text_whole, rfl, unpadded⟩⟩
        · exact absurd empty some_block
        · exact absurd whole odd
        · rcases outcome _ some_block whole with ⟨q, same, -⟩ | ⟨-, ran⟩
          · rw [plainOf_cbcEncrypt undoes text_whole] at same
            obtain ⟨least, most⟩ := missing_bounds q (n := 32) (by decide)
            exact absurd ⟨_, q, least, most, same⟩ unpadded
          · exact ran
  · by_cases none : c = [] ∨ c.length % 32 ≠ 0
    · exact ⟨_, by rw [Rijndael256.decrypt, if_pos none]⟩
    · obtain ⟨some_block, uneven⟩ := not_or.mp none
      rcases outcome c some_block (not_not.mp uneven) with ⟨q, -, ran⟩ | ⟨-, ran⟩
      · exact ⟨_, ran⟩
      · exact ⟨_, ran⟩

end Exact

end SiriusProxy.Rijndael
