import Snappy.Proofs.Decoding.Records

namespace Snappy

/-- What holds of a record in a stream of the given size by itself. Its symbol
adds to the output and takes bytes that the stream has; a literal's payload ends
where they end, and a copy of no more than the longest length looks at nothing
before the output. -/
structure Record.Placed (record : Record) (size : Nat) : Prop where
  one_le_length : 1 ≤ record.symbol.length
  two_le_width : 2 ≤ record.width
  cursorEnd_le : record.cursorEnd ≤ size
  literal_ends : ∀ length start, record.symbol = .literal length start →
    start + length = record.cursorEnd
  copy_reaches : ∀ length offset, record.symbol = .copy length offset →
    1 ≤ offset ∧ offset ≤ record.outputStart ∧ length ≤ maxCopyLength

/-- The records lie one after the other without a gap, both in the stream and in
the output. The first lies at the two given positions. -/
def Tiles (size : Nat) : (cursor produced : Nat) → List Record → Prop
  | _, _, [] => True
  | cursor, produced, record :: records =>
    record.cursor = cursor ∧ record.outputStart = produced ∧ record.Placed size ∧
      Tiles size record.cursorEnd record.outputEnd records

theorem Element.placed_record {size cursor produced : Nat} {element : Element}
    (hvalid : element.Valid) (hreaches : element.Reaches produced)
    (hend : cursor + element.width ≤ size) : (element.record cursor produced).Placed size := by
  refine ⟨?_, hvalid.two_le_width, hend, ?_, ?_⟩
  · rw [record, length_symbolAt]
    exact hvalid.length_pos
  · intro length start hsymbol
    cases element with
    | literal extra payload =>
      cases hsymbol
      simp only [cursorEnd_record, width]
      omega
    | copy form length offset => cases hsymbol
  · intro length offset hsymbol
    cases element with
    | literal extra payload => cases hsymbol
    | copy form length offset =>
      cases hsymbol
      exact ⟨hreaches.1, hreaches.2, hvalid.length_le⟩

/-- Elements that can be written one after the other tile the stream from where
they lie. -/
theorem tiles_locate {size cursor produced : Nat} {elements : List Element}
    (hsound : Element.Sound produced elements)
    (hend : cursor + (Element.encodeAll elements).length ≤ size) :
    Tiles size cursor produced (locate cursor produced elements) := by
  induction elements generalizing cursor produced with
  | nil => trivial
  | cons element elements ih =>
    obtain ⟨hvalid, hreaches, hrest⟩ := hsound
    rw [Element.encodeAll_cons, List.length_append, Element.length_encode] at hend
    refine ⟨rfl, rfl, Element.placed_record hvalid hreaches (by omega), ?_⟩
    rw [Element.cursorEnd_record, Element.outputEnd_record]
    exact ih hrest (by omega)

theorem sum_length_locate (cursor produced : Nat) (elements : List Element) :
    ((locate cursor produced elements).map fun record => record.symbol.length).sum =
      Element.totalLength elements := by
  rw [map_length_locate, Element.totalLength]

/-- The records of a decoding tile the stream from its start and the output from
nothing on, up to the length that they cover together. -/
theorem tiles_of_decode {stream : Bytes} {requested start : Nat} {decoding : Decoding}
    (hdecode : decode stream requested start = .ok decoding) :
    Tiles stream.size start 0 decoding.records ∧
      decoding.producedLength = (decoding.records.map fun record => record.symbol.length).sum ∧
      decoding.producedLength ≤ requested := by
  obtain ⟨hstart, elements, hopens, rfl⟩ := opens_of_decode hdecode
  have hend := add_length_le_of_isPrefix_drop hstart hopens.encoded
  refine ⟨tiles_locate hopens.sound hend, ?_, ?_⟩
  · rw [Decoding.producedLength_locate, sum_length_locate]
  · rw [Decoding.producedLength_locate]
    exact hopens.length_le

end Snappy
