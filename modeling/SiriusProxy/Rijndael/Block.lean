import SiriusProxy.Rijndael.Schedule

open Cbc

namespace SiriusProxy.Rijndael

variable {key : State} {unsub : UInt8 → UInt8} {cipher : Rijndael256}

/-- Byte `i` of the flat state is row `i % 4` of column `i / 4`. -/
theorem toBytes_read (s : State) {i : Nat} (inside : i < 32) :
    (toBytes s)[i]? = some (s (Fin.ofNat 8 (i / 4)) (Fin.ofNat 4 i)) := by
  rw [toBytes_range, List.getElem?_map, List.getElem?_range' (by simpa using inside), Option.map_some, Nat.zero_add,
    Nat.one_mul]

/-- The loop that adds a round key reads the words of the schedule at the round's place, which is inside it for the
15 rounds there are, and changes each byte by its own byte of the key. -/
theorem addKey_eq (built : Built key unsub cipher) {round : Nat} (most : round ≤ 14) (s : State) :
    cipher.addKey round (toBytes s) = some (toBytes (s ^^^ roundKey key round)) := by
  rw [toBytes_range s, toBytes_range (s ^^^ roundKey key round), Rijndael256.addKey]
  refine eachIndexed_eq fun i _ inside => ?_
  rw [Nat.zero_add] at inside
  have word_read := built.words (round * 8 + i / 4) (by omega)
  have column : (Fin.ofNat 8 (i / 4)).val = i / 4 := by
    rw [Fin.val_ofNat]
    omega
  have row : Fin.ofNat 4 (i % 4) = Fin.ofNat 4 i := by
    apply Fin.ext
    rw [Fin.val_ofNat, Fin.val_ofNat]
    omega
  simp only [word_read, ofWord_read _ (i % 4) (Nat.mod_lt i (by decide)), row, Option.bind_eq_bind, Option.bind_some,
    State.xor_apply, roundKey, column]

/-- Where each cell is read and written. -/
theorem cells_sound : ∀ cell ∈ Rijndael256.cells,
    cell.2.2 ≤ cell.1 + 8 ∧ (cell.1 + 8 - cell.2.2) % 8 * 4 + cell.2.1 < 32 ∧ cell.1 * 4 + cell.2.1 < 32 ∧
      Fin.ofNat 8 (((cell.1 + 8 - cell.2.2) % 8 * 4 + cell.2.1) / 4) =
        Fin.ofNat 8 ((cell.1 * 4 + cell.2.1) / 4) - shift (Fin.ofNat 4 (cell.1 * 4 + cell.2.1)) ∧
      Fin.ofNat 4 ((cell.1 + 8 - cell.2.2) % 8 * 4 + cell.2.1) = Fin.ofNat 4 (cell.1 * 4 + cell.2.1) := by
  decide +kernel

/-- The cells between them write every byte of the state. -/
theorem cells_cover : ∀ j, j < 32 → j ∈ Rijndael256.cells.map fun cell => cell.1 * 4 + cell.2.1 := by
  decide +kernel

/-- The loop over the cells reads from the old state and writes to the new one, each byte once. So the order of the
cells does not matter, and the result is the inverse shift with the inverse box applied. -/
theorem unshift_eq (built : Built key unsub cipher) (s : State) :
    loop (cipher.putCell (toBytes s)) Rijndael256.cells (toBytes s) = some (toBytes (unshift unsub s)) := by
  refine (loop_fill (fun cell => cell.1 * 4 + cell.2.1)
    (fun j => unshift unsub s (Fin.ofNat 8 (j / 4)) (Fin.ofNat 4 j)) (fun cell member => ?_) ?_).trans ?_
  · obtain ⟨order, read, written, column, row⟩ := cells_sound cell member
    rw [length_toBytes]
    refine ⟨written, fun ys length => ?_⟩
    simp only [Rijndael256.putCell, checkedSub_eq order, toBytes_read s read, built.inverse, Option.bind_eq_bind,
      Option.bind_some]
    rw [put_eq (by rw [length]; exact written), column, row]
    rfl
  · rw [length_toBytes]
    exact cells_cover
  · rw [length_toBytes, toBytes_range, List.range_eq_range']

/-- The loop over the rows of a column reads the old column only, so the four sums it writes are those of the
inverse matrix. -/
theorem unmixColumn_eq (w : Word) :
    loop (Rijndael256.putRow (ofWord w)) (List.range 4) (ofWord w) = some (ofWord (unmixColumn w)) := by
  have next : ∀ r < 4, ∀ k < 4, Fin.ofNat 4 ((r + k) % 4) = Fin.ofNat 4 r + Fin.ofNat 4 k := by decide
  refine (loop_fill (fun r => r) (fun r => unmixColumn w (Fin.ofNat 4 r)) (fun r member => ?_) ?_).trans rfl
  · have bound := List.mem_range.mp member
    refine ⟨bound, fun column length => ?_⟩
    have read : ∀ k < 4, (ofWord w)[(r + k) % 4]? = some (w (Fin.ofNat 4 r + Fin.ofNat 4 k)) := by
      intro k small
      rw [ofWord_read w _ (Nat.mod_lt _ (by decide)), next r bound k small]
    simp only [Rijndael256.putRow, ofWord_read w r bound, read 1 (by decide), read 2 (by decide), read 3 (by decide),
      Option.bind_eq_bind, Option.bind_some]
    exact put_eq (by rw [length]; exact bound)
  · exact fun j inside => List.mem_map.mpr ⟨j, List.mem_range.mpr inside, rfl⟩

/-- The state is cut into its columns and each is treated by itself; nothing is left over at the end. -/
theorem unmix_eq (s : State) : Rijndael256.unmix (toBytes s) = some (toBytes (unmixColumns s)) := by
  have split : asChunks 4 (toBytes s) = columns s := by rw [← chunks_toBytes, asChunks, length_toBytes]
  have columns_unmixed : each (fun a => loop (Rijndael256.putRow a) (List.range 4) a) (columns s) =
      some (columns (unmixColumns s)) := by
    simp only [columns, each, unmixColumn_eq, Option.bind_eq_bind, Option.bind_some]
    rfl
  have nothing : (toBytes s).drop ((toBytes s).length / 4 * 4) = [] := by
    rw [length_toBytes]
    exact List.drop_eq_nil_of_le (Nat.le_refl _)
  simp only [Rijndael256.unmix, split, columns_unmixed, nothing, Option.bind_eq_bind, Option.bind_some, List.append_nil]
  rfl

/-- One round of the code is one inverse round, the last one without mixing. -/
theorem round_eq (built : Built key unsub cipher) {round : Nat} (most : round ≤ 14) (s : State) :
    cipher.round (toBytes s) round = some (toBytes (unround unsub key round s)) := by
  simp only [Rijndael256.round, unshift_eq built, addKey_eq built most, Option.bind_eq_bind, Option.bind_some, unround]
  split
  · exact unmix_eq _
  · rfl

/-- The loop counts the rounds down. By induction on their number, with the state generalised. -/
theorem rounds_eq (built : Built key unsub cipher) {n : Nat} (most : n ≤ 14) (s : State) :
    loop cipher.round (List.range n).reverse (toBytes s) = some (toBytes (unrounds unsub key n s)) := by
  induction n generalizing s with
  | zero => rfl
  | succ n ih =>
    rw [List.range_succ, List.reverse_append, List.reverse_singleton, List.singleton_append, loop,
      round_eq built (by omega), Option.bind_eq_bind, Option.bind_some, ih (by omega), unrounds]

/-- `block` computes the inverse cipher, within range. -/
theorem block_eq (built : Built key unsub cipher) (s : State) :
    cipher.block (toBytes s) = some (toBytes (decryptBlock unsub key s)) := by
  have whitened := addKey_eq built (Nat.le_refl 14) s
  have undone := rounds_eq built (Nat.le_refl 14) (s ^^^ roundKey key 14)
  rw [Rijndael256.block, if_pos (length_toBytes s), Option.bind_eq_bind, Option.bind_some]
  beta_reduce
  rw [whitened, Option.bind_some, undone, decryptBlock]

end SiriusProxy.Rijndael
