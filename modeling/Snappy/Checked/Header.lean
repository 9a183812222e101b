import Mathlib.Algebra.GroupWithZero.Nat
import Snappy.Block.Header
import Snappy.Checked.Arithmetic

namespace Snappy.Checked

/-- The word with its bits moved up, if the number of places is one that words can
be moved by, and no set bit leaves the word. -/
def shiftLeft (word places : UInt64) : Except Fault UInt64 :=
  if places < 64 ∧ word.toNat <<< places.toNat < 2 ^ 64 then .ok (word <<< places)
  else .error .overflow

/-- The union of two words, if they have no set bit in common. -/
def union (a b : UInt64) : Except Fault UInt64 :=
  if a &&& b = 0 then .ok (a ||| b) else .error .outOfStep

/-- Gathers the length in a header, in machine words. -/
def gather (shift gathered : UInt64) (width : Nat) :
    List UInt8 → Except Fault (Option (UInt64 × Nat))
  | [] => .ok none
  | byte :: rest => do
    let group ← shiftLeft (byte &&& 0x7f).toUInt64 shift
    let gathered ← union gathered group
    if byte < 0x80 then return some (gathered, width + 1)
    gather (← add shift 7) gathered (width + 1) rest

/-- Reads the header with which a block begins, in machine words. The outer result
tells whether every group of bits reached its place whole, and found the place
empty. -/
def readHeader (block : Bytes) : Except Fault (Except Error Header) := do
  match ← gather 0 0 0 (block.toList.take Header.maxWidth) with
  | none => return .error .headerUnterminated
  | some (length, width) =>
    if length.toNat ≤ Header.maxLength then return .ok ⟨length.toNat, width⟩
    else return .error .blockTooLong

end Snappy.Checked
