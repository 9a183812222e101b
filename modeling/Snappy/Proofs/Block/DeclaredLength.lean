import Snappy.Proofs.Block.Body

namespace Snappy

/-- A body is made up of elements in one way only, and has the length that they
have together. -/
theorem Element.Fills.length_eq {length length' : Nat} {body : List UInt8}
    {elements elements' : List Element} (hfills : Fills length body elements)
    (hfills' : Fills length' body elements') : length = length' := by
  have hencoded : encodeAll elements = encodeAll elements' :=
    hfills.encodeAll_eq.trans hfills'.encodeAll_eq.symm
  have helements := hfills.opens.eq_of_encodeAll_eq hfills'.opens hencoded
  rw [← hfills.totalLength_eq, ← hfills'.totalLength_eq, helements]

/-- The body of an accepted block leaves its header no choice but that of its
width. With any header for the same length the output stays what it is; a
header for more or for less makes the block corrupt. -/
theorem decompress_with_other_header {header header' body output : Bytes} {length length' : Nat}
    (hdeclares : Header.Declares header.toList length)
    (hdeclares' : Header.Declares header'.toList length')
    (hok : decompress (header ++ body) = .ok output) :
    (length' = length → decompress (header' ++ body) = .ok output) ∧
      (length' ≠ length → (decompress (header' ++ body)).mapError Error.message =
        .error "snappy: corrupt input") := by
  obtain ⟨elements, hfills, houtput⟩ := fills_of_decompress hdeclares Array.toList_append hok
  constructor
  · rintro rfl
    rw [decompress_eq_ok_of_fills hdeclares' Array.toList_append hfills, ← houtput,
      Array.toArray_toList]
  · intro hne
    have hnone : ∀ others, ¬ Element.Fills length' body.toList others := by
      intro others hothers
      exact hne (hothers.length_eq hfills)
    rw [decompress_eq_corrupt hdeclares' Array.toList_append hnone]
    rfl

/-- A wider header for the same six bytes, a header for nothing, one for the
literal alone, and one for a byte more than the copy adds. -/
theorem decompress_with_other_header_of_run :
    Header.Declares [0x06] 6 ∧ Header.Declares [0x86, 0x80, 0x00] 6 ∧
      Header.Declares [0x80, 0x00] 0 ∧ Header.Declares [0x01] 1 ∧ Header.Declares [0x07] 7 ∧
      decompress (#[0x06] ++ #[0x00, 0x63, 0x05, 0x01]) = .ok #[0x63, 0x63, 0x63, 0x63, 0x63, 0x63] ∧
      decompress (#[0x86, 0x80, 0x00] ++ #[0x00, 0x63, 0x05, 0x01]) =
        .ok #[0x63, 0x63, 0x63, 0x63, 0x63, 0x63] ∧
      (decompress (#[0x80, 0x00] ++ #[0x00, 0x63, 0x05, 0x01])).mapError Error.message =
        .error "snappy: corrupt input" ∧
      (decompress (#[0x01] ++ #[0x00, 0x63, 0x05, 0x01])).mapError Error.message =
        .error "snappy: corrupt input" ∧
      (decompress (#[0x07] ++ #[0x00, 0x63, 0x05, 0x01])).mapError Error.message =
        .error "snappy: corrupt input" := by
  have hdeclares : Header.Declares [0x06] 6 := by decide
  have hpadded : Header.Declares [0x86, 0x80, 0x00] 6 := by decide
  have hzero : Header.Declares [0x80, 0x00] 0 := by decide
  have hless : Header.Declares [0x01] 1 := by decide
  have hmore : Header.Declares [0x07] 7 := by decide
  have hfills : Element.Fills 6 [0x00, 0x63, 0x05, 0x01]
      [.literal 0 [0x63], .copy .oneByte 5 1] := by decide
  have hok : decompress (#[0x06] ++ #[0x00, 0x63, 0x05, 0x01]) =
      .ok #[0x63, 0x63, 0x63, 0x63, 0x63, 0x63] := decompress_eq_ok_of_fills hdeclares rfl hfills
  exact ⟨hdeclares, hpadded, hzero, hless, hmore, hok,
    (decompress_with_other_header hdeclares hpadded hok).1 rfl,
    (decompress_with_other_header hdeclares hzero hok).2 (by decide),
    (decompress_with_other_header hdeclares hless hok).2 (by decide),
    (decompress_with_other_header hdeclares hmore hok).2 (by decide)⟩

end Snappy
