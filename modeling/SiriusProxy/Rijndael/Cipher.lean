import SiriusProxy.Error
import SiriusProxy.Lib.Cbc
import SiriusProxy.Master.Manifest
import SiriusProxy.Rijndael.Field

open Cbc SiriusProxy.Master

namespace SiriusProxy.Rijndael

/-! An index out of range and a subtraction below zero panic in the source; here they are `none`. -/

section Checked
universe u v
variable {α : Type u}

/-- `xs[i] = x`. -/
def put (xs : List α) (i : Nat) (x : α) : Option (List α) := if i < xs.length then some (xs.set i x) else none

/-- `&xs[start..]`. -/
def sliceFrom (xs : List α) (start : Nat) : Option (List α) := if start ≤ xs.length then some (xs.drop start) else none

/-- `as_chunks`. -/
def asChunks (n : Nat) (xs : List α) : List (List α) := chunks n (xs.length / n) xs

/-- The elements in turn, each with its index. -/
def eachIndexed (f : Nat → α → Option α) : Nat → List α → Option (List α)
  | _, [] => some []
  | i, x :: rest => do
    let x ← f i x
    let rest ← eachIndexed f (i + 1) rest
    some (x :: rest)

def each {β : Type v} (f : α → Option β) : List α → Option (List β)
  | [] => some []
  | x :: rest => do
    let y ← f x
    let rest ← each f rest
    some (y :: rest)

/-- A loop over `items` with a state. -/
def loop {σ : Type u} {ι : Type v} (body : σ → ι → Option σ) : List ι → σ → Option σ
  | [], s => some s
  | i :: rest, s => do
    let s ← body s i
    loop body rest s

end Checked

/-- `iter_mut` fills the table in order; the inverse is written at the index the entry gives. -/
def boxes : Option (List UInt8 × List UInt8) := do
  let sbox := (List.range 256).map fun i => sboxEntry (UInt8.ofNat i)
  let inverse ← loop (fun inverse i => put inverse (sboxEntry (UInt8.ofNat i)).toNat (UInt8.ofNat i))
    (List.range 256) (List.replicate 256 0)
  some (sbox, inverse)

structure Rijndael256 where
  words : List (List UInt8)
  inverse : List UInt8

/-- `copy_from_slice` for each pair; it panics when the lengths differ. -/
def copyWords : List (List UInt8) → List (List UInt8) → Option (List (List UInt8))
  | w :: words, bytes :: rest => do
    let w ← if w.length = bytes.length then some bytes else none
    let words ← copyWords words rest
    some (w :: words)
  | words, _ => some words

/-- `[T]::rotate_left(1)`. -/
def rotateOne (t : List UInt8) : Option (List UInt8) := if 1 ≤ t.length then some (t.drop 1 ++ t.take 1) else none

def transform (sbox t : List UInt8) (i : Nat) (rcon : UInt8) : Option (List UInt8 × UInt8) :=
  if i % 8 = 0 then do
    let t ← rotateOne t
    let t ← each (fun b => sbox[b.toNat]?) t
    let first ← t[0]?
    let t ← put t 0 (first ^^^ rcon)
    some (t, mul rcon 2)
  else if i % 8 = 4 then do
    let t ← each (fun b => sbox[b.toNat]?) t
    some (t, rcon)
  else some (t, rcon)

/-- `words[i][j] = words[i - 8][j] ^ b`. -/
def putWordByte (i : Nat) (words : List (List UInt8)) (entry : UInt8 × Nat) : Option (List (List UInt8)) := do
  let back ← checkedSub i 8
  let source ← words[back]?
  let byte ← source[entry.2]?
  let row ← words[i]?
  let row ← put row entry.2 (byte ^^^ entry.1)
  put words i row

def expandWord (sbox : List UInt8) (state : List (List UInt8) × UInt8) (i : Nat) :
    Option (List (List UInt8) × UInt8) := do
  let last ← checkedSub i 1
  let t ← state.1[last]?
  let (t, rcon) ← transform sbox t i state.2
  let words ← loop (putWordByte i) t.zipIdx state.1
  some (words, rcon)

def Rijndael256.new (key : Vector UInt8 32) : Option Rijndael256 := do
  let (sbox, inverse) ← boxes
  let words ← copyWords (List.replicate 120 [0, 0, 0, 0]) (asChunks 4 key.toList)
  let (words, _) ← loop (expandWord sbox) (List.range' 8 112) (words, 1)
  some { words, inverse }

namespace Rijndael256
variable (cipher : Rijndael256)

def addKey (round : Nat) (state : List UInt8) : Option (List UInt8) :=
  eachIndexed (fun i b => do
    let word ← cipher.words[round * 8 + i / 4]?
    let k ← word[i % 4]?
    some (b ^^^ k)) 0 state

/-- The cells of the state in the order of the two loops: column, row and the shift of the row. -/
def cells : List (Nat × Nat × Nat) :=
  (List.range 8).flatMap fun column => [(column, 0, 0), (column, 1, 1), (column, 2, 3), (column, 3, 4)]

def putCell (previous state : List UInt8) (cell : Nat × Nat × Nat) : Option (List UInt8) := do
  let from_column ← checkedSub (cell.1 + 8) cell.2.2
  let b ← previous[from_column % 8 * 4 + cell.2.1]?
  let value ← cipher.inverse[b.toNat]?
  put state (cell.1 * 4 + cell.2.1) value

def putRow (a column : List UInt8) (row : Nat) : Option (List UInt8) := do
  let a0 ← a[row]?
  let a1 ← a[(row + 1) % 4]?
  let a2 ← a[(row + 2) % 4]?
  let a3 ← a[(row + 3) % 4]?
  put column row (mul a0 14 ^^^ mul a1 11 ^^^ mul a2 13 ^^^ mul a3 9)

/-- The columns in place; bytes after the last whole column stay. -/
def unmix (state : List UInt8) : Option (List UInt8) := do
  let columns ← each (fun a => loop (putRow a) (List.range 4) a) (asChunks 4 state)
  some (columns.flatten ++ state.drop (state.length / 4 * 4))

def round (state : List UInt8) (round : Nat) : Option (List UInt8) := do
  let state ← loop (cipher.putCell state) cells state
  let state ← cipher.addKey round state
  if round ≠ 0 then unmix state else some state

def block (input : List UInt8) : Option (List UInt8) := do
  let state ← if input.length = 32 then some input else none
  let state ← cipher.addKey 14 state
  loop cipher.round (List.range 14).reverse state

/-- The state of the loop is the previous block and the output. -/
def decryptNext (state : List UInt8 × List UInt8) (block : List UInt8) : Option (List UInt8 × List UInt8) := do
  let plain ← cipher.block block
  some (block, state.2 ++ List.zipWith (· ^^^ ·) plain state.1)

/-- The check and removal of the padding. -/
def unpad (output : List UInt8) : Option (Except MasterError (List UInt8)) :=
  match output.getLast? with
  | none => some (.error .cipher)
  | some last =>
    if 1 ≤ last.toNat ∧ last.toNat ≤ 32 then do
      let start ← checkedSub output.length last.toNat
      let padding ← sliceFrom output start
      if padding.all fun b => decide (b.toNat = last.toNat) then do
        let keep ← checkedSub output.length last.toNat
        some (.ok (output.take keep))
      else some (.error .cipher)
    else some (.error .cipher)

def decrypt (encrypted : List UInt8) (iv : Vector UInt8 32) : Option (Except MasterError (List UInt8)) :=
  if encrypted = [] ∨ encrypted.length % 32 ≠ 0 then some (.error .cipher)
  else do
    let (_, output) ← loop cipher.decryptNext (asChunks 32 encrypted) (iv.toList, [])
    unpad output

end Rijndael256

end SiriusProxy.Rijndael
