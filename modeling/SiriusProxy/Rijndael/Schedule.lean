import SiriusProxy.Rijndael.Cipher
import SiriusProxy.Rijndael.Standard

open Cbc

namespace SiriusProxy.Rijndael

section Loops
universe u v
variable {α : Type u} {ι : Type v}

/-- A loop whose body writes at an index that depends on the item, a value that depends on the index. -/
theorem loop_put {body : List α → ι → Option (List α)} (index : ι → Nat) (value : Nat → α) {items : List ι}
    {xs : List α}
    (writes : ∀ i ∈ items, index i < xs.length ∧
      ∀ ys : List α, ys.length = xs.length → body ys i = some (ys.set (index i) (value (index i)))) :
    ∃ ys, loop body items xs = some ys ∧ ys.length = xs.length ∧
      ∀ j, j < xs.length → ys[j]? = if j ∈ items.map index then some (value j) else xs[j]? := by
  induction items generalizing xs with
  | nil => exact ⟨xs, rfl, rfl, fun j _ => rfl⟩
  | cons i rest ih =>
    obtain ⟨bound, first⟩ := writes i List.mem_cons_self
    have size : (xs.set (index i) (value (index i))).length = xs.length := List.length_set
    have others : ∀ k ∈ rest, index k < (xs.set (index i) (value (index i))).length ∧
        ∀ ys : List α, ys.length = (xs.set (index i) (value (index i))).length →
          body ys k = some (ys.set (index k) (value (index k))) := by
      rw [size]
      exact fun k member => writes k (List.mem_cons_of_mem _ member)
    obtain ⟨ys, ran, length, read⟩ := ih others
    refine ⟨ys, ?_, length.trans size, fun j inside => ?_⟩
    · rw [loop, first xs rfl]
      exact ran
    · rw [read j (by rw [size]; exact inside), List.map_cons]
      by_cases later : j ∈ rest.map index
      · rw [if_pos later, if_pos (List.mem_cons_of_mem _ later)]
      · rw [if_neg later]
        by_cases same : index i = j
        · subst same
          rw [if_pos List.mem_cons_self, List.getElem?_set_self inside]
        · rw [List.getElem?_set_ne same, if_neg]
          intro member
          rcases List.mem_cons.mp member with equal | there
          · exact same equal.symm
          · exact later there

/-- A loop that writes every index. -/
theorem loop_fill {body : List α → ι → Option (List α)} (index : ι → Nat) (value : Nat → α) {items : List ι}
    {xs : List α}
    (writes : ∀ i ∈ items, index i < xs.length ∧
      ∀ ys : List α, ys.length = xs.length → body ys i = some (ys.set (index i) (value (index i))))
    (covers : ∀ j, j < xs.length → j ∈ items.map index) :
    loop body items xs = some ((List.range xs.length).map value) := by
  obtain ⟨ys, ran, length, read⟩ := loop_put index value writes
  rw [ran]
  congr 1
  refine List.ext_getElem? fun j => ?_
  rw [List.getElem?_map]
  by_cases inside : j < xs.length
  · rw [read j inside, if_pos (covers j inside), List.getElem?_range inside, Option.map_some]
  · rw [List.getElem?_eq_none (by omega), List.getElem?_eq_none (by rw [List.length_range]; omega), Option.map_none]

theorem put_eq {xs : List α} {i : Nat} {x : α} (bound : i < xs.length) : put xs i x = some (xs.set i x) := if_pos bound

theorem eachIndexed_eq {f : Nat → α → Option α} {g h : Nat → α} {k n : Nat}
    (same : ∀ i, k ≤ i → i < k + n → f i (g i) = some (h i)) :
    eachIndexed f k ((List.range' k n).map g) = some ((List.range' k n).map h) := by
  induction n generalizing k with
  | zero => rfl
  | succ n ih =>
    rw [List.range'_succ, List.map_cons, eachIndexed, same k (Nat.le_refl k) (by omega)]
    simp only [Option.bind_eq_bind, Option.bind_some]
    rw [ih fun i low high => same i (by omega) (by omega), Option.bind_some, List.map_cons]

theorem each_eq {β : Type v} {f : α → Option β} {h : α → β} {xs : List α} (same : ∀ x ∈ xs, f x = some (h x)) :
    each f xs = some (xs.map h) := by
  induction xs with
  | nil => rfl
  | cons x rest ih =>
    rw [each, same x List.mem_cons_self]
    simp only [Option.bind_eq_bind, Option.bind_some]
    rw [ih fun y member => same y (List.mem_cons_of_mem _ member), Option.bind_some, List.map_cons]

end Loops

/-- The tables: the standard one, and one that undoes it. -/
theorem boxes_eq : ∃ (inverse : List UInt8) (unsub : UInt8 → UInt8),
    boxes = some ((List.range 256).map fun i => sub (UInt8.ofNat i), inverse) ∧
      (∀ y : UInt8, inverse[y.toNat]? = some (unsub y)) ∧ ∀ x, unsub (sub x) = x := by
  have onto : Function.Surjective sub := Finite.injective_iff_surjective.mp sub_injective
  obtain ⟨unsub, right⟩ := onto.hasRightInverse
  have left : ∀ x, unsub (sub x) = x := fun x => sub_injective (right (sub x))
  have zeros : (List.replicate 256 (0 : UInt8)).length = 256 := List.length_replicate
  have ran : loop (fun inverse i => put inverse (sub (UInt8.ofNat i)).toNat (UInt8.ofNat i)) (List.range 256)
      (List.replicate 256 0) = some ((List.range 256).map fun j => unsub (UInt8.ofNat j)) := by
    refine (loop_fill (fun i => (sub (UInt8.ofNat i)).toNat) (fun j => unsub (UInt8.ofNat j)) ?_ ?_).trans
      (by rw [zeros])
    · intro i _
      have bound : (sub (UInt8.ofNat i)).toNat < 256 := UInt8.toNat_lt _
      rw [zeros]
      refine ⟨bound, fun ys length => ?_⟩
      rw [put_eq (by rw [length]; exact bound), UInt8.ofNat_toNat, left]
    · intro j inside
      rw [zeros] at inside
      refine List.mem_map.mpr ⟨(unsub (UInt8.ofNat j)).toNat, List.mem_range.mpr (UInt8.toNat_lt _), ?_⟩
      rw [UInt8.ofNat_toNat, right, UInt8.toNat_ofNat', Nat.mod_eq_of_lt inside]
  refine ⟨(List.range 256).map fun j => unsub (UInt8.ofNat j), unsub, ?_, fun y => ?_, left⟩
  · simp only [boxes, sboxEntry_eq, ran, Option.bind_eq_bind, Option.bind_some]
  · rw [List.getElem?_map, List.getElem?_range y.toNat_lt, Option.map_some, UInt8.ofNat_toNat]

theorem sbox_read (x : UInt8) : ((List.range 256).map fun i => sub (UInt8.ofNat i))[x.toNat]? = some (sub x) := by
  rw [List.getElem?_map, List.getElem?_range x.toNat_lt, Option.map_some, UInt8.ofNat_toNat]

/-- The first `n` words of the schedule, and zeros. -/
def filled (key : State) (n : Nat) : List (List UInt8) :=
  (List.range n).map (fun i => ofWord (word key i)) ++ List.replicate (120 - n) [0, 0, 0, 0]

theorem filled_read {key : State} {n i : Nat} (below : i < n) : (filled key n)[i]? = some (ofWord (word key i)) := by
  rw [filled, List.getElem?_append_left (by rw [List.length_map, List.length_range]; exact below), List.getElem?_map,
    List.getElem?_range below, Option.map_some]

theorem filled_next {key : State} {n : Nat} (below : n < 120) : (filled key n)[n]? = some [0, 0, 0, 0] := by
  have size : ((List.range n).map fun i => ofWord (word key i)).length = n := by rw [List.length_map, List.length_range]
  rw [filled, List.getElem?_append_right (by rw [size]), size, Nat.sub_self, List.getElem?_replicate,
    if_pos (by omega)]

theorem filled_length {key : State} {n : Nat} (most : n ≤ 120) : (filled key n).length = 120 := by
  rw [filled, List.length_append, List.length_map, List.length_range, List.length_replicate]
  omega

theorem filled_succ {key : State} {n : Nat} (below : n < 120) :
    (filled key n).set n (ofWord (word key n)) = filled key (n + 1) := by
  have size : ((List.range n).map fun i => ofWord (word key i)).length = n := by rw [List.length_map, List.length_range]
  have more : 120 - n = 120 - (n + 1) + 1 := by omega
  rw [filled, List.set_append_right _ _ (by rw [size]), size, Nat.sub_self, more, List.replicate_succ, List.set_cons_zero,
    filled, List.range_succ, List.map_append, List.append_assoc]
  rfl

/-- The four assignments of `words[i]`. -/
theorem putWord_eq {words : List (List UInt8)} {i : Nat} {back : Word} (t : Word) (low : 8 ≤ i) (high : i < words.length)
    (source : words[i - 8]? = some (ofWord back)) (row : words[i]? = some [0, 0, 0, 0]) :
    loop (putWordByte i) (ofWord t).zipIdx words = some (words.set i (ofWord fun r => back r ^^^ t r)) := by
  have step : ∀ (rows : List UInt8) (j : Nat) (b : UInt8), rows.length = 4 → j < 4 →
      putWordByte i (words.set i rows) (b, j) = some (words.set i (rows.set j (back (Fin.ofNat 4 j) ^^^ b))) := by
    intro rows j b four bound
    have kept : (words.set i rows)[i - 8]? = some (ofWord back) := by
      rw [List.getElem?_set_ne (by omega), source]
    have here : (words.set i rows)[i]? = some rows := List.getElem?_set_self high
    simp only [putWordByte, checkedSub_eq low, kept, ofWord_read back j bound, here,
      put_eq (show j < rows.length by omega), Option.bind_eq_bind, Option.bind_some]
    rw [put_eq (by rw [List.length_set]; exact high), List.set_set]
  have start : words = words.set i [0, 0, 0, 0] := by
    obtain ⟨bound, zeros⟩ := List.getElem?_eq_some_iff.mp row
    rw [← zeros, List.set_getElem_self]
  calc loop (putWordByte i) (ofWord t).zipIdx words
      = loop (putWordByte i) [(t 0, 0), (t 1, 1), (t 2, 2), (t 3, 3)] (words.set i [0, 0, 0, 0]) := by
        rw [← start]
        rfl
    _ = some (words.set i (ofWord fun r => back r ^^^ t r)) := by
        simp only [loop, step, List.length_set, List.length_cons, List.length_nil, Nat.reduceAdd, Nat.reduceLT,
          Option.bind_eq_bind, Option.bind_some]
        rfl

theorem mul_two (a : UInt8) : mul a 2 = double a := by
  rw [double_eq]
  exact (mul_left 2).ext xtime_additive (by decide +kernel) a

/-- The words of the key. -/
theorem word_key {key : State} {i : Nat} (bound : i < 8) : word key i = key ⟨i, bound⟩ := by
  rw [word, dif_pos bound]

theorem word_next {key : State} {i : Nat} (low : 8 ≤ i) :
    word key i = nextWord i (word key (i - 8)) (word key (i - 1)) := by
  rw [word, dif_neg (by omega)]

theorem transform_eighth {i : Nat} (w : Word) (c : UInt8) (eighth : i % 8 = 0) :
    transform ((List.range 256).map fun i => sub (UInt8.ofNat i)) (ofWord w) i c =
      some (ofWord fun r => sub (w (r + 1)) ^^^ if r = 0 then c else 0, double c) := by
  have rotated : rotateOne (ofWord w) = some [w 1, w 2, w 3, w 0] := rfl
  have substituted : each (fun b : UInt8 => ((List.range 256).map fun i => sub (UInt8.ofNat i))[b.toNat]?)
      [w 1, w 2, w 3, w 0] = some [sub (w 1), sub (w 2), sub (w 3), sub (w 0)] := each_eq fun b _ => sbox_read b
  have first : put [sub (w 1), sub (w 2), sub (w 3), sub (w 0)] 0 (sub (w 1) ^^^ c) =
      some [sub (w 1) ^^^ c, sub (w 2), sub (w 3), sub (w 0)] := rfl
  rw [transform, if_pos eighth, rotated]
  simp only [Option.bind_eq_bind, Option.bind_some, substituted, List.getElem?_cons_zero, first, mul_two]
  have rest : ∀ x : UInt8, x ^^^ 0 = x := xor_zero
  simp only [ofWord, Fin.isValue, if_true, Fin.reduceEq, if_false, rest]
  rfl

/-- One word of the schedule. -/
theorem expandWord_eq {key : State} {i : Nat} (low : 8 ≤ i) (high : i < 120) :
    expandWord ((List.range 256).map fun i => sub (UInt8.ofNat i)) (filled key i, rcon ((i - 1) / 8)) i =
      some (filled key (i + 1), rcon (i / 8)) := by
  have last : (filled key i)[i - 1]? = some (ofWord (word key (i - 1))) := filled_read (by omega)
  have back : (filled key i)[i - 8]? = some (ofWord (word key (i - 8))) := filled_read (by omega)
  have length : i < (filled key i).length := by rw [filled_length (by omega)]; exact high
  -- The transformed word, and the constant after it.
  have changed : ∃ t, transform ((List.range 256).map fun i => sub (UInt8.ofNat i)) (ofWord (word key (i - 1))) i
      (rcon ((i - 1) / 8)) = some (ofWord t, rcon (i / 8)) ∧
      word key i = fun r => word key (i - 8) r ^^^ t r := by
    by_cases eighth : i % 8 = 0
    · refine ⟨fun r => sub (word key (i - 1) (r + 1)) ^^^ if r = 0 then rcon (i / 8 - 1) else 0, ?_, ?_⟩
      · have before : (i - 1) / 8 = i / 8 - 1 := by omega
        have after : rcon (i / 8) = double (rcon (i / 8 - 1)) := by
          have positive : i / 8 = i / 8 - 1 + 1 := by omega
          rw [positive, rcon, Nat.add_sub_cancel]
        rw [before, transform_eighth _ _ eighth, after]
      · rw [word_next low]
        funext r
        rw [nextWord, if_pos eighth]
    · have same : (i - 1) / 8 = i / 8 := by omega
      by_cases fourth : i % 8 = 4
      · refine ⟨fun r => sub (word key (i - 1) r), ?_, ?_⟩
        · rw [transform, if_neg eighth, if_pos fourth, same,
            each_eq fun b _ => sbox_read b]
          rfl
        · rw [word_next low]
          funext r
          rw [nextWord, if_neg eighth, if_pos fourth]
      · refine ⟨word key (i - 1), ?_, ?_⟩
        · rw [transform, if_neg eighth, if_neg fourth, same]
        · rw [word_next low]
          funext r
          rw [nextWord, if_neg eighth, if_neg fourth]
  obtain ⟨t, transformed, next⟩ := changed
  simp only [expandWord, checkedSub_eq (show 1 ≤ i by omega), last, transformed, Option.bind_eq_bind, Option.bind_some,
    putWord_eq t low length back (filled_next high)]
  rw [← next, filled_succ high]

theorem expand_eq (key : State) {i n : Nat} (low : 8 ≤ i) (high : i + n ≤ 120) :
    loop (expandWord ((List.range 256).map fun i => sub (UInt8.ofNat i))) (List.range' i n)
      (filled key i, rcon ((i - 1) / 8)) = some (filled key (i + n), rcon ((i + n - 1) / 8)) := by
  induction n generalizing i with
  | zero => rfl
  | succ n ih =>
    rw [List.range'_succ, loop, expandWord_eq low (by omega), Option.bind_eq_bind, Option.bind_some]
    have rest := ih (i := i + 1) (by omega) (by omega)
    rw [Nat.add_sub_cancel] at rest
    rw [rest, Nat.add_right_comm, Nat.add_assoc]

theorem copyWords_eq (zero : List UInt8) {cs : List (List UInt8)} {n : Nat} (same : ∀ c ∈ cs, zero.length = c.length)
    (fits : cs.length ≤ n) :
    copyWords (List.replicate n zero) cs = some (cs ++ List.replicate (n - cs.length) zero) := by
  induction cs generalizing n with
  | nil =>
    cases n with
    | zero => rfl
    | succ n => rfl
  | cons c rest ih =>
    cases n with
    | zero => cases fits
    | succ n =>
      rw [List.length_cons] at fits
      rw [List.replicate_succ, copyWords, if_pos (same c List.mem_cons_self)]
      simp only [Option.bind_eq_bind, Option.bind_some]
      rw [ih (fun d member => same d (List.mem_cons_of_mem _ member)) (by omega), Option.bind_some, List.length_cons,
        Nat.add_sub_add_right, List.cons_append]

theorem filled_key (key : State) : columns key ++ List.replicate 112 [0, 0, 0, 0] = filled key 8 := by
  have words : (List.range 8).map (fun i => ofWord (word key i)) = columns key := by
    simp only [List.range_succ, List.range_zero, List.nil_append, List.cons_append, List.map_cons, List.map_nil,
      word_key (show 0 < 8 by decide), word_key (show 1 < 8 by decide), word_key (show 2 < 8 by decide),
      word_key (show 3 < 8 by decide), word_key (show 4 < 8 by decide), word_key (show 5 < 8 by decide),
      word_key (show 6 < 8 by decide), word_key (show 7 < 8 by decide)]
    rfl
  rw [filled, words]

/-- What `new` builds: the schedule of the key, and a table that undoes the substitution. -/
structure Built (key : State) (unsub : UInt8 → UInt8) (cipher : Rijndael256) : Prop where
  words : ∀ i, i < 120 → cipher.words[i]? = some (ofWord (word key i))
  inverse : ∀ y : UInt8, cipher.inverse[y.toNat]? = some (unsub y)
  undoes : ∀ x, unsub (sub x) = x

theorem new_eq (key : Vector UInt8 32) :
    ∃ cipher unsub, Rijndael256.new key = some cipher ∧ Built (ofBytes key.toList) unsub cipher := by
  obtain ⟨inverse, unsub, tables, read, undoes⟩ := boxes_eq
  have bytes : asChunks 4 key.toList = columns (ofBytes key.toList) := by
    rw [← chunks_toBytes, toBytes_ofBytes key.length_toList, asChunks, key.length_toList]
  have copied : copyWords (List.replicate 120 [0, 0, 0, 0]) (columns (ofBytes key.toList)) =
      some (filled (ofBytes key.toList) 8) := by
    rw [copyWords_eq [0, 0, 0, 0] (fun c member => (columns_sized _ c member).symm) (by rw [length_columns]; decide),
      length_columns, filled_key]
  have expanded := expand_eq (ofBytes key.toList) (i := 8) (n := 112) (by decide) (by decide)
  refine ⟨{ words := filled (ofBytes key.toList) 120, inverse }, unsub, ?_, ?_, read, undoes⟩
  · simp only [Rijndael256.new, tables, bytes, copied, Option.bind_eq_bind, Option.bind_some]
    rw [show (1 : UInt8) = rcon ((8 - 1) / 8) from rfl, expanded]
    rfl
  · intro i bound
    exact filled_read bound

end SiriusProxy.Rijndael
