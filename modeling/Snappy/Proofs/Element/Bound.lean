import Snappy.Element.Encoding

namespace Snappy.Element

/-- No element stands for more than 64 bytes of output for each three bytes that it
takes. The longest copies with an offset of two bytes stand for as many. -/
theorem Valid.three_mul_length_le {element : Element} (hvalid : element.Valid) :
    3 * element.length ≤ 64 * element.width := by
  cases element with
  | literal extra payload =>
    simp only [length, width]
    omega
  | copy form length offset =>
    obtain ⟨-, hmax, -⟩ := hvalid
    cases form <;> simp only [CopyForm.minLength, CopyForm.lengthCount] at hmax <;>
      simp only [Element.length, width, CopyForm.offsetWidth] <;> omega

/-- Where there is no output yet, only a literal can come. -/
theorem Sound.exists_literal {element : Element} {elements : List Element}
    (hsound : Sound 0 (element :: elements)) : ∃ extra payload, element = .literal extra payload := by
  cases element with
  | literal extra payload => exact ⟨extra, payload, rfl⟩
  | copy form length offset =>
    obtain ⟨-, ⟨hpos, hoffset⟩, -⟩ := hsound
    omega

/-- What each element keeps to, all of them keep to together. -/
theorem Sound.bounds {produced : Nat} {elements : List Element} (hsound : Sound produced elements) :
    2 * elements.length ≤ (encodeAll elements).length ∧ elements.length ≤ totalLength elements ∧
      3 * totalLength elements ≤ 64 * (encodeAll elements).length := by
  induction elements generalizing produced with
  | nil => simp
  | cons element elements ih =>
    obtain ⟨hvalid, -, hrest⟩ := hsound
    have hwidth := hvalid.two_le_width
    have hlength := hvalid.length_pos
    have hbound := hvalid.three_mul_length_le
    obtain ⟨hcount, htotal, hothers⟩ := ih hrest
    rw [List.length_cons, totalLength_cons, encodeAll_cons, List.length_append, length_encode]
    omega

/-- The first element has to be a literal, which stands for far less than a copy of
its width. So two of the bytes taken are worth one byte of output, and only the
others may be worth as much as copies are. -/
theorem Sound.totalLength_bound {elements : List Element} (hsound : Sound 0 elements)
    (hfound : elements ≠ []) :
    3 * (totalLength elements - 1) ≤ 64 * ((encodeAll elements).length - 2) := by
  cases elements with
  | nil => exact absurd rfl hfound
  | cons element elements =>
    obtain ⟨extra, payload, rfl⟩ := hsound.exists_literal
    obtain ⟨⟨-, hpayload, -⟩, -, hrest⟩ := hsound
    obtain ⟨-, -, hothers⟩ := hrest.bounds
    rw [totalLength_cons, encodeAll_cons, List.length_append, length_encode, length, width]
    omega

/-- A literal of one byte and copies of the greatest length that repeat it. They
stand for as much output as the bytes that they take allow. -/
def byteRun (byte : UInt8) (copies : Nat) : List Element :=
  .literal 0 [byte] :: List.replicate copies (.copy .twoByte maxCopyLength 1)

theorem sound_replicate_copy {produced : Nat} (hproduced : 1 ≤ produced) (copies : Nat) :
    Sound produced (List.replicate copies (.copy .twoByte maxCopyLength 1)) := by
  induction copies generalizing produced with
  | zero => trivial
  | succ copies ih => exact ⟨by decide, ⟨Nat.le_refl 1, hproduced⟩, ih (by omega)⟩

theorem sound_byteRun (byte : UInt8) (copies : Nat) : Sound 0 (byteRun byte copies) :=
  ⟨⟨by decide, by simp, by simp [literalCapacity]⟩, trivial,
    sound_replicate_copy (by simp [length]) copies⟩

theorem totalLength_byteRun (byte : UInt8) (copies : Nat) :
    totalLength (byteRun byte copies) = 1 + 64 * copies := by
  simp [byteRun, totalLength, length, maxCopyLength, Nat.mul_comm]

theorem length_encodeAll_byteRun (byte : UInt8) (copies : Nat) :
    (encodeAll (byteRun byte copies)).length = 2 + 3 * copies := by
  simp [byteRun, encodeAll, width, CopyForm.offsetWidth, Nat.mul_comm]

end Snappy.Element
