import Snappy.Checked.Arithmetic
import Snappy.Decoding.Basic
import Snappy.Error

namespace Snappy.Checked

/-- The state of a decoding in machine words. -/
structure State where
  cursor : UInt64
  remaining : UInt64
  produced : UInt64
  deriving DecidableEq, Repr

/-- How many bytes a symbol's opening takes: its tag and the length or offset
bytes behind the tag. -/
def tagWidth (tag : UInt8) : Except Fault UInt64 :=
  if tag &&& 3 = 1 then .ok 2
  else if tag &&& 3 = 2 then .ok 3
  else if tag &&& 3 = 3 then .ok 5
  else if tag >>> 2 < 60 then .ok 1
  else do add 1 (← sub (tag >>> 2).toUInt64 59)

/-- Moves the state behind a symbol of the given width and length. -/
def advance (state : State) (width length : UInt64) : Except Fault State := do
  return {
    cursor := ← add state.cursor width
    remaining := ← sub state.remaining length
    produced := ← add state.produced length }

/-- The length that a literal's opening announces. -/
def literalLength (opening : Bytes) (tag : UInt8) (width : UInt64) : Except Fault UInt64 := do
  if 1 < width then add (← field opening 1 (← sub width 1).toNat) 1
  else add (tag >>> 2).toUInt64 1

/-- The length and the offset in the opening of a copy whose tag holds a part of
both. -/
def shortCopy (opening : Bytes) (tag : UInt8) : Except Fault (UInt64 × UInt64) := do
  let low ← itemAt opening 1
  let length ← add ((tag >>> 2) &&& 7).toUInt64 4
  return (length, ((tag &&& 0xe0).toUInt64 <<< 3) ||| low.toUInt64)

/-- The length and the offset in the opening of a copy whose tag holds only the
length. -/
def longCopy (opening : Bytes) (tag : UInt8) (width : UInt64) : Except Fault (UInt64 × UInt64) := do
  let offset ← field opening 1 (if width = 5 then 4 else 2)
  let length ← add (tag >>> 2).toUInt64 1
  if maxCopyLength < length.toNat then throw .copyTooLong
  else return (length, offset)

/-- The length and the offset that a copy's opening announces. -/
def copyFields (opening : Bytes) (tag : UInt8) (width : UInt64) : Except Fault (UInt64 × UInt64) :=
  if tag &&& 3 = 1 then shortCopy opening tag else longCopy opening tag width

/-- Takes the literal with the given opening, whose payload starts at `start`. -/
def takeLiteral (size : UInt64) (state : State) (opening : Bytes) (tag : UInt8) (width start : UInt64) :
    Except Fault (Option (Symbol × State)) := do
  let length ← literalLength opening tag width
  if state.remaining < length then return none
  if (← sub size start) < length then return none
  return some (.literal length.toNat start.toNat, ← advance state (← add width length) length)

/-- Takes the copy with the given opening. -/
def takeCopy (state : State) (opening : Bytes) (tag : UInt8) (width : UInt64) :
    Except Fault (Option (Symbol × State)) := do
  let (length, offset) ← copyFields opening tag width
  if offset = 0 ∨ state.produced < offset ∨ state.remaining < length then return none
  return some (.copy length.toNat offset.toNat, ← advance state width length)

/-- Takes the symbol with the given opening, behind which the stream goes on at
`start`. -/
def takeOpened (size : UInt64) (state : State) (opening : Bytes) (tag : UInt8) (width start : UInt64) :
    Except Fault (Option (Symbol × State)) :=
  if tag &&& 3 = 0 then takeLiteral size state opening tag width start
  else takeCopy state opening tag width

/-- Takes the symbol at the cursor, if it can be taken. Its opening is cut out of
the stream first, so that reading past it is a fault even where the stream goes
on. -/
def takeSymbol (stream : Bytes) (size : UInt64) (state : State) :
    Except Fault (Option (Symbol × State)) := do
  if size ≤ state.cursor then return none
  let tag ← itemAt stream state.cursor
  let width ← tagWidth tag
  let start ← add state.cursor width
  if size < start then return none
  takeOpened size state (stream.extract state.cursor.toNat start.toNat) tag width start

/-- The parts of the state fit together: produced and remaining output make up
what was requested, and the cursor is within the stream. -/
def State.InStep (state : State) (size requested : UInt64) : Prop :=
  state.produced.toNat + state.remaining.toNat = requested.toNat ∧ state.cursor ≤ size

instance (state : State) (size requested : UInt64) : Decidable (state.InStep size requested) :=
  inferInstanceAs (Decidable (state.produced.toNat + state.remaining.toNat = requested.toNat ∧
    state.cursor ≤ size))

/-- Takes symbols until nothing remains or one cannot be taken. -/
def walk (stream : Bytes) (size requested : UInt64) (state : State) (found : Array Record) :
    Except Fault (Array Record) :=
  if ¬ state.InStep size requested then .error .outOfStep
  else if state.remaining = 0 then .ok found
  else
    match takeSymbol stream size state with
    | .error fault => .error fault
    | .ok none => .ok found
    | .ok (some (symbol, next)) =>
      if _h : state.cursor < next.cursor ∧ next.cursor ≤ size then
        walk stream size requested next (found.push {
          cursor := state.cursor.toNat
          width := (next.cursor - state.cursor).toNat
          outputStart := state.produced.toNat
          symbol := symbol })
      else .error .outOfStep
termination_by size.toNat - state.cursor.toNat
decreasing_by
  have hforward := UInt64.lt_iff_toNat_lt.1 _h.1
  have hbound := UInt64.le_iff_toNat_le.1 _h.2
  omega

/-- Decodes a stream in machine words. The outer result tells whether all
arithmetic stayed within words, all look-ups within the stream, and the records fit
together. -/
def decode (stream : Bytes) (requested start : UInt64) : Except Fault (Except Error Decoding) := do
  let size := UInt64.ofNat stream.size
  if size < start then return .error .startBeyondStream
  let records ← walk stream size requested ⟨start, requested, 0⟩ #[]
  if hcontinues : Continues requested.toNat 0 records.toList then
    return .ok ⟨records.toList, requested.toNat, hcontinues⟩
  else throw .outOfStep

end Snappy.Checked
