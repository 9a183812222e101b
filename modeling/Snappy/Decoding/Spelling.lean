import Snappy.Bytes.Basic
import Snappy.Decoding.Basic

namespace Snappy

/-- The form of a copy that takes the given number of bytes. No two forms take
the same. -/
def CopyForm.ofWidth : Nat → CopyForm
  | 2 => .oneByte
  | 3 => .twoByte
  | _ => .fourByte

theorem CopyForm.ofWidth_width (form : CopyForm) : CopyForm.ofWidth (1 + form.offsetWidth) = form := by
  cases form <;> rfl

namespace Record

/-- The element that a record describes, given a literal's payload. The symbol
and the width leave nothing else open: a literal's width tells how many length
bytes it has, and a copy's width tells its form. -/
def spelling (record : Record) (payload : List UInt8) : Element :=
  match record.symbol with
  | .literal length _ => .literal (record.width - length - 1) payload
  | .copy length offset => .copy (.ofWidth record.width) length offset

/-- The bytes of the stream that a literal takes as its payload. A copy takes
none. -/
def payload (record : Record) (stream : Bytes) : List UInt8 :=
  match record.symbol with
  | .literal length start => (stream.extract start (start + length)).toList
  | .copy _ _ => []

end Record

/-- The elements that the records describe, with the literals' payloads taken
from the stream. -/
def Decoding.elements (decoding : Decoding) (stream : Bytes) : List Element :=
  decoding.records.map fun record => record.spelling (record.payload stream)

/-- An element can be told from its record and its payload. -/
theorem Element.spelling_record (cursor produced extra : Nat) (payload : List UInt8) :
    ((Element.literal extra payload).record cursor produced).spelling payload =
      .literal extra payload := by
  simp only [record, Record.spelling, symbolAt, width]
  congr 1
  omega

theorem Element.spelling_record_copy (cursor produced : Nat) (form : CopyForm) (length offset : Nat) :
    ((Element.copy form length offset).record cursor produced).spelling [] =
      .copy form length offset := by
  simp only [record, Record.spelling, symbolAt, width, CopyForm.ofWidth_width]

end Snappy
