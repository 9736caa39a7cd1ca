import Mathlib.Algebra.BigOperators.Group.List.Basic
import Mathlib.Algebra.GroupWithZero.Nat

/-! The writes of a tar archive by their sizes, and a sink that takes only so much. -/
namespace Tar

/-- The zeros that fill the last block of `n` bytes. -/
def padding (n : Nat) : Nat := (512 - n % 512) % 512

/-- A header and the bytes it announces. -/
def record (n : Nat) : List Nat := [512, n, padding n]

/-- A member; a name that does not fit its header stands before it in a record of its own, with a zero. -/
def member (long : Bool) (name size : Nat) : List Nat := (if long then record (name + 1) else []) ++ record size

/-- The two empty blocks at the end. -/
def trailer : List Nat := [1024]

/-- One write to a sink that holds `len` of `limit` bytes. -/
def put (limit len n : Nat) : Option Nat := if limit - len < n then none else some (len + n)

def putAll (limit : Nat) : Nat → List Nat → Option Nat
  | len, [] => some len
  | len, n :: rest => (put limit len n).bind fun len => putAll limit len rest

end Tar
