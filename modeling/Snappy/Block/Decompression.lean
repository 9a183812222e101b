import Snappy.Block.Header
import Snappy.Decoding.Expansion
import Snappy.Decoding.Walk

namespace Snappy

/-- The output of a block: what its body decodes to for the length that its
header declares. The body has to cover that length and to end with the
block. -/
def decompress (block : Bytes) : Except Error Bytes := do
  let header ← Header.read block
  let decoding ← decode block header.length header.width
  if decoding.isComplete ∧ decoding.endCursor?.getD header.width = block.size then
    decoding.expand block
  else .error .corrupt

/-- A buffer whose first bytes are replaced by the output. -/
def overwriteFront (output buffer : Bytes) : Bytes := output ++ buffer.extract output.size

/-- Writes the output of a block over the front of a buffer, and returns how
many bytes that are. A buffer shorter than the declared length is refused
before the body is looked at. -/
def decompressInto (block : Bytes) : EStateM Error Bytes Nat := do
  let header ← MonadExcept.ofExcept (Header.read block)
  let room := (← get).size
  if room < header.length then throw .destinationTooShort
  let output ← MonadExcept.ofExcept (decompress block)
  modify (overwriteFront output)
  return output.size

end Snappy
