import Snappy.Checked.Arithmetic
import Snappy.Error
import Snappy.Symbol.Basic

namespace Snappy.Checked

/-- A symbol whose length and position are machine words. -/
inductive WordSymbol where
  | literal (length start : UInt64)
  | copy (length offset : UInt64)
  deriving DecidableEq, Repr

/-- The same symbol in numbers. -/
def WordSymbol.symbol : WordSymbol → Symbol
  | .literal length start => .literal length.toNat start.toNat
  | .copy length offset => .copy length.toNat offset.toNat

/-- The bytes from one index up to another, if they all exist. -/
def part (bytes : Bytes) (start stop : UInt64) : Except Fault Bytes :=
  if start ≤ stop ∧ stop.toNat ≤ bytes.size then .ok (bytes.extract start.toNat stop.toNat)
  else .error .outOfBounds

/-- The payload of a literal. It is no fault if the payload does not end within
the stream, or not even at an index that fits in a word: then there is none. -/
def payload? (stream : Bytes) (start length : UInt64) : Option Bytes :=
  match add start length >>= part stream start with
  | .ok payload => some payload
  | .error _ => none

/-- Appends `count` bytes to those gathered, from the pattern and its
repetitions. A pattern with a period of nothing has no byte to look up. -/
def cycle (pattern : Bytes) (period : UInt64) :
    (count : Nat) → (index : UInt64) → (gathered : Bytes) → Except Fault Bytes
  | 0, _, gathered => .ok gathered
  | count + 1, index, gathered => do
    let byte ← itemAt pattern (index % period)
    cycle pattern period count (← add index 1) (gathered.push byte)

/-- Pushes `count` bytes, each looked up in the output as it is by then, from
`index` places behind `start` on. -/
def pushBack (start : UInt64) : (count : Nat) → (index : UInt64) → (output : Bytes) → Except Fault Bytes
  | 0, _, output => .ok output
  | count + 1, index, output => do
    let byte ← itemAt output (← add start index)
    pushBack start count (← add index 1) (output.push byte)

/-- The bytes that the symbol adds to the output, in machine words. A copy that
is no longer than its offset is a part of the output; a longer one repeats the
end of the output. -/
def contribution (stream output : Bytes) : WordSymbol → Except Fault (Except Error Bytes)
  | .literal length start =>
    match payload? stream start length with
    | some payload => return .ok payload
    | none => return .error .literalBeyondStream
  | .copy length offset => do
    let size := UInt64.ofNat output.size
    if offset = 0 ∨ size < offset then return .error .offsetOutOfRange
    let start ← sub size offset
    if length ≤ offset then return .ok (← part output start (← add start length))
    else return .ok (← cycle (← part output start size) offset length.toNat 0 #[])

/-- Adds the symbol's bytes to the buffer that holds the output, in machine
words. A copy that is no longer than its offset is made at once; a longer one
is pushed byte by byte, so that it looks up bytes that it has pushed itself. -/
def expand (stream output : Bytes) : WordSymbol → Except Fault (EStateM.Result Error Bytes Unit)
  | .literal length start =>
    match payload? stream start length with
    | some payload => return .ok () (output ++ payload)
    | none => return .error .literalBeyondStream output
  | .copy length offset => do
    let size := UInt64.ofNat output.size
    if offset = 0 ∨ size < offset then return .error .offsetOutOfRange output
    let start ← sub size offset
    if length ≤ offset then return .ok () (output ++ (← part output start (← add start length)))
    else return .ok () (← pushBack start length.toNat 0 output)

end Snappy.Checked
