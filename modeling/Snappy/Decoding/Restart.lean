import Snappy.Decoding.Walk

namespace Snappy

namespace Record

/-- All output that the symbol looks at lies behind the position. A literal looks
at none. -/
def StaysBehind (position : Nat) (record : Record) : Prop :=
  match record.symbol with
  | .literal _ _ => True
  | .copy _ offset => position + offset ≤ record.outputStart

instance decidableStaysBehind (position : Nat) :
    (record : Record) → Decidable (record.StaysBehind position)
  | ⟨_, _, _, .literal _ _⟩ => inferInstanceAs (Decidable True)
  | ⟨_, _, outputStart, .copy _ offset⟩ =>
    inferInstanceAs (Decidable (position + offset ≤ outputStart))

/-- The same symbol in an output that begins only at the position. -/
def rebase (position : Nat) (record : Record) : Record :=
  { record with outputStart := record.outputStart - position }

end Record

/-- How far the walk from `start` on had come before the record with the given
index, or at its end if there is no such record. -/
def Decoding.progressAt (decoding : Decoding) (start index : Nat) : Progress :=
  match decoding.records[index]? with
  | some record => ⟨record.cursor, decoding.requested - record.outputStart, record.outputStart⟩
  | none =>
    ⟨decoding.endCursor?.getD start, decoding.requested - decoding.producedLength,
      decoding.producedLength⟩

end Snappy
