import Snappy.Symbol.Basic

namespace Snappy

/-- One decoded symbol, and where it lies: the stream position of its tag, the
bytes it takes there, and the output position before it. -/
structure Record where
  cursor : Nat
  width : Nat
  outputStart : Nat
  symbol : Symbol
  deriving DecidableEq, Repr

namespace Record

/-- The output position behind the symbol. -/
def outputEnd (record : Record) : Nat := record.outputStart + record.symbol.length

/-- The stream position behind the symbol. -/
def cursorEnd (record : Record) : Nat := record.cursor + record.width

end Record

/-- The record of an element whose tag is at `cursor`, behind `produced` bytes
of output. -/
def Element.record (cursor produced : Nat) (element : Element) : Record where
  cursor := cursor
  width := element.width
  outputStart := produced
  symbol := element.symbolAt cursor

@[simp]
theorem Element.outputEnd_record (cursor produced : Nat) (element : Element) :
    (element.record cursor produced).outputEnd = produced + element.length := by
  simp [record, Record.outputEnd]

@[simp]
theorem Element.cursorEnd_record (cursor produced : Nat) (element : Element) :
    (element.record cursor produced).cursorEnd = cursor + element.width := rfl

/-- The records of elements that lie one after the other in the stream and in
the output. -/
def locate (cursor produced : Nat) : List Element → List Record
  | [] => []
  | element :: elements =>
    element.record cursor produced ::
      locate (cursor + element.width) (produced + element.length) elements

/-- The records go on from an output of the given length, and do not pass the limit.
Each begins where the one before it ends, in the output and in the stream, and looks
at nothing before the output. -/
def Continues (limit produced : Nat) : List Record → Prop
  | [] => True
  | record :: records =>
    record.outputStart = produced ∧ record.symbol.Reaches produced ∧ record.outputEnd ≤ limit ∧
      (∀ next ∈ records.head?, next.cursor = record.cursorEnd) ∧
      Continues limit record.outputEnd records

instance decidableContinues (limit produced : Nat) :
    (records : List Record) → Decidable (Continues limit produced records)
  | [] => inferInstanceAs (Decidable True)
  | record :: records =>
    haveI := decidableContinues limit record.outputEnd records
    inferInstanceAs (Decidable (record.outputStart = produced ∧ record.symbol.Reaches produced ∧
      record.outputEnd ≤ limit ∧ (∀ next ∈ records.head?, next.cursor = record.cursorEnd) ∧
      Continues limit record.outputEnd records))

/-- The symbols found by decoding a stream for a requested number of output
bytes, in the order of the stream. They may cover fewer bytes than requested, but
leave no gap, and none of them looks at what is not there. -/
structure Decoding where
  records : List Record
  requested : Nat
  continues : Continues requested 0 records
  deriving DecidableEq, Repr

namespace Decoding

/-- How many bytes of output the records cover. -/
def producedLength (decoding : Decoding) : Nat :=
  match decoding.records.getLast? with
  | some record => record.outputEnd
  | none => 0

/-- The records cover the requested number of bytes. -/
def isComplete (decoding : Decoding) : Bool := decoding.producedLength == decoding.requested

/-- The stream position behind the last record. -/
def endCursor? (decoding : Decoding) : Option Nat := decoding.records.getLast?.map Record.cursorEnd

end Decoding

end Snappy
