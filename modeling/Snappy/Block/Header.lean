import Snappy.Bytes.Basic
import Snappy.Error

namespace Snappy

/-- The header of a block: the length that it declares for the output, and the
bytes that it takes itself. -/
structure Header where
  length : Nat
  width : Nat
  deriving DecidableEq, Repr

namespace Header

/-- No header takes more bytes. -/
def maxWidth : Nat := 5

/-- No block is longer when decompressed. -/
def maxLength : Nat := 0x7fffffff

/-- Takes seven bits of length from each byte, least significant first, up to
the first byte whose highest bit is clear. The `width` bytes before have filled
the `shift` lowest bits of `gathered`. Returns the length with the number of
bytes that held it. -/
def gather (shift gathered : UInt64) (width : Nat) : List UInt8 → Option (UInt64 × Nat)
  | [] => none
  | byte :: rest =>
    let gathered := gathered ||| ((byte &&& 0x7f).toUInt64 <<< shift)
    if byte < 0x80 then some (gathered, width + 1)
    else gather (shift + 7) gathered (width + 1) rest

/-- Reads the header with which a block begins. -/
def read (block : Bytes) : Except Error Header :=
  match gather 0 0 0 (block.toList.take maxWidth) with
  | none => .error .headerUnterminated
  | some (length, width) =>
    if length.toNat ≤ maxLength then .ok ⟨length.toNat, width⟩ else .error .blockTooLong

end Header

end Snappy
