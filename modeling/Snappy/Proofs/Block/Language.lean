import Snappy.Proofs.Block.Body

namespace Snappy

/-- A block is accepted exactly if it is a header for the length of its output
and, behind it, elements that can be written one after the other and have that
length together. The output is what the elements expand to, from left to
right. -/
theorem decompress_eq_ok_iff {block output : Bytes} :
    decompress block = .ok output ↔
      ∃ header elements, block.toList = header ++ Element.encodeAll elements ∧
        Header.Declares header output.size ∧ Element.Sound 0 elements ∧
        Element.totalLength elements = output.size ∧
        output.toList = Element.expandAll [] elements := by
  constructor
  · intro hok
    obtain ⟨header, body, elements, hblock, hdeclares, hfills, houtput⟩ :=
      exists_fills_of_decompress hok
    rw [← hfills.encodeAll_eq] at hblock
    exact ⟨header, elements, hblock, hdeclares, hfills.sound, hfills.totalLength_eq, houtput⟩
  · rintro ⟨header, elements, hblock, hdeclares, hsound, htotal, houtput⟩
    rw [decompress_eq_ok_of_fills hdeclares hblock ⟨hsound, htotal, rfl⟩, ← houtput,
      Array.toArray_toList]

end Snappy
