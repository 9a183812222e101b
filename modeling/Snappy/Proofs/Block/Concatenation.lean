import Snappy.Proofs.Block.Body

namespace Snappy

/-- What stands before the bytes that a copy can reach has no part in it. -/
theorem copyBack_append {offset length : Nat} {front output : List UInt8}
    (hoffset : offset ≤ output.length) :
    copyBack offset length (front ++ output) = front ++ copyBack offset length output := by
  induction length generalizing output with
  | zero => rfl
  | succ length ih =>
    have hindex : (front ++ output).length - offset = front.length + (output.length - offset) := by
      rw [List.length_append]
      omega
    have hbyte : (front ++ output)[(front ++ output).length - offset]? =
        output[output.length - offset]? := by
      rw [hindex, List.getElem?_append_right (Nat.le_add_right _ _), Nat.add_sub_cancel_left]
    have hgrown : offset ≤ (output ++ output[output.length - offset]?.toList).length := by
      rw [List.length_append]
      omega
    rw [copyBack, copyBack, hbyte, List.append_assoc, ih hgrown]

namespace Element

theorem expand_append {front output : List UInt8} {element : Element}
    (hreaches : element.Reaches output.length) :
    element.expand (front ++ output) = front ++ element.expand output := by
  cases element with
  | literal extra payload => exact List.append_assoc front output payload
  | copy form length offset => exact copyBack_append hreaches.2

/-- Elements that can stand behind an output mean the same behind any longer
one. -/
theorem expandAll_append_output {front output : List UInt8} {elements : List Element}
    (hsound : Sound output.length elements) :
    expandAll (front ++ output) elements = front ++ expandAll output elements := by
  induction elements generalizing output with
  | nil => rfl
  | cons element elements ih =>
    obtain ⟨-, hreaches, hrest⟩ := hsound
    rw [← length_expand hreaches] at hrest
    rw [expandAll_cons, expandAll_cons, expand_append hreaches, ih hrest]

theorem Fills.expandAll_behind {length : Nat} {body : List UInt8} {elements : List Element}
    (hfills : Fills length body elements) (front : List UInt8) :
    expandAll front elements = front ++ expandAll [] elements := by
  have hnothing : Sound ([] : List UInt8).length elements := hfills.sound
  rw [← expandAll_append_output hnothing, List.append_nil]

/-- Two bodies, one behind the other, are a body. The copies of the second have
more output before them there, and look at none of it. -/
theorem Fills.append {length length' : Nat} {body body' : List UInt8}
    {elements elements' : List Element} (hfills : Fills length body elements)
    (hfills' : Fills length' body' elements') :
    Fills (length + length') (body ++ body') (elements ++ elements') := by
  refine ⟨sound_append.2 ⟨hfills.sound, hfills'.sound.mono (Nat.zero_le _)⟩, ?_, ?_⟩
  · rw [totalLength_append, hfills.totalLength_eq, hfills'.totalLength_eq]
  · rw [encodeAll_append, hfills.encodeAll_eq, hfills'.encodeAll_eq]

end Element

/-- The bodies of two accepted blocks, one behind the other, decompress to the
two outputs, one behind the other, as soon as a header declares their common
length. How wide the three headers are does not matter. -/
theorem decompress_append {header header' joint body body' output output' : Bytes}
    {length length' : Nat} (hdeclares : Header.Declares header.toList length)
    (hdeclares' : Header.Declares header'.toList length')
    (hjoint : Header.Declares joint.toList (length + length'))
    (hok : decompress (header ++ body) = .ok output)
    (hok' : decompress (header' ++ body') = .ok output') :
    decompress (joint ++ body ++ body') = .ok (output ++ output') := by
  obtain ⟨elements, hfills, houtput⟩ := fills_of_decompress hdeclares Array.toList_append hok
  obtain ⟨elements', hfills', houtput'⟩ := fills_of_decompress hdeclares' Array.toList_append hok'
  have hblock : (joint ++ body ++ body').toList = joint.toList ++ (body.toList ++ body'.toList) := by
    rw [Array.toList_append, Array.toList_append, List.append_assoc]
  have hexpand : Element.expandAll [] (elements ++ elements') = (output ++ output').toList := by
    calc Element.expandAll [] (elements ++ elements')
        = Element.expandAll output.toList elements' := by rw [Element.expandAll_append, ← houtput]
      _ = output.toList ++ Element.expandAll [] elements' := hfills'.expandAll_behind output.toList
      _ = (output ++ output').toList := by rw [← houtput', Array.toList_append]
  rw [decompress_eq_ok_of_fills hjoint hblock (hfills.append hfills'), hexpand,
    Array.toArray_toList]

theorem decompress_append_padded_headers :
    Header.Declares [0x02] 2 ∧ Header.Declares [0x86, 0x80, 0x00] 6 ∧
      Header.Declares [0x88, 0x00] (2 + 6) ∧
      decompress (#[0x02] ++ #[0x04, 0x61, 0x62]) = .ok #[0x61, 0x62] ∧
      decompress (#[0x86, 0x80, 0x00] ++ #[0x00, 0x63, 0x05, 0x01]) =
        .ok #[0x63, 0x63, 0x63, 0x63, 0x63, 0x63] ∧
      decompress (#[0x88, 0x00] ++ #[0x04, 0x61, 0x62] ++ #[0x00, 0x63, 0x05, 0x01]) =
        .ok (#[0x61, 0x62] ++ #[0x63, 0x63, 0x63, 0x63, 0x63, 0x63]) := by
  have hdeclares : Header.Declares [0x02] 2 := by decide
  have hdeclares' : Header.Declares [0x86, 0x80, 0x00] 6 := by decide
  have hjoint : Header.Declares [0x88, 0x00] (2 + 6) := by decide
  have hfills : Element.Fills 2 [0x04, 0x61, 0x62] [.literal 0 [0x61, 0x62]] := by decide
  have hfills' : Element.Fills 6 [0x00, 0x63, 0x05, 0x01]
      [.literal 0 [0x63], .copy .oneByte 5 1] := by decide
  have hok : decompress (#[0x02] ++ #[0x04, 0x61, 0x62]) = .ok #[0x61, 0x62] :=
    decompress_eq_ok_of_fills hdeclares rfl hfills
  have hok' : decompress (#[0x86, 0x80, 0x00] ++ #[0x00, 0x63, 0x05, 0x01]) =
      .ok #[0x63, 0x63, 0x63, 0x63, 0x63, 0x63] :=
    decompress_eq_ok_of_fills hdeclares' rfl hfills'
  exact ⟨hdeclares, hdeclares', hjoint, hok, hok',
    decompress_append hdeclares hdeclares' hjoint hok hok'⟩

end Snappy
