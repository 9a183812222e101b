import Snappy.Proofs.Decoding.Spelling

namespace Snappy

/-- The record tells what the element is, and where it stands behind the elements
before it, in the stream and in the output. -/
structure Record.Describes (record : Record) (start : Nat) (before : List Element) (element : Element) :
    Prop where
  cursor_eq : record.cursor = start + (Element.encodeAll before).length
  width_eq : record.width = element.encode.length
  outputStart_eq : record.outputStart = Element.totalLength before
  tells : record.symbol.Tells record.cursor element

/-- The decoding describes the elements one by one, and they are the elements that
the stream holds from the start up to where the decoding ends. -/
structure Decoding.Spells (decoding : Decoding) (stream : Bytes) (start : Nat) (elements : List Element) :
    Prop where
  elements_eq : decoding.elements stream = elements
  describes : ∀ before element after, elements = before ++ element :: after →
    ∃ record, decoding.records[before.length]? = some record ∧ record.Describes start before element
  valid : ∀ element ∈ elements, element.Valid
  reaches : ∀ record ∈ decoding.records, record.symbol.Reaches record.outputStart
  end_le : decoding.endCursor?.getD start ≤ stream.size
  encoded : Element.encodeAll elements =
    (stream.extract start (decoding.endCursor?.getD start)).toList
  producedLength_eq : Element.totalLength elements = decoding.producedLength

theorem Element.describes_record (start : Nat) (before : List Element) (element : Element) :
    (element.record (start + (encodeAll before).length) (totalLength before)).Describes
      start before element where
  cursor_eq := rfl
  width_eq := element.length_encode.symm
  outputStart_eq := rfl
  tells := Symbol.tells_iff.2 rfl

theorem Decoding.spells_locate {stream : Bytes} {requested start : Nat} {elements : List Element}
    (hstart : start ≤ stream.size)
    (hopens : Element.Opens 0 requested (stream.toList.drop start) elements) :
    (mk (locate start 0 elements) requested (hopens.continues start)).Spells stream start elements where
  elements_eq := elements_locate hopens.encoded
  describes := by
    rintro before element after rfl
    exact ⟨_, getElem?_locate_append_cons start before after element,
      element.describes_record start before⟩
  valid _ helement := hopens.sound.valid_of_mem helement
  reaches _ hrecord := (hopens.continues start).reaches_of_mem hrecord
  end_le := by
    rw [endCursor?_locate]
    exact add_length_le_of_isPrefix_drop hstart hopens.encoded
  encoded := by rw [endCursor?_locate, extract_eq_of_isPrefix_drop hopens.encoded]
  producedLength_eq := producedLength_locate.symm

/-- Decoding finds the longest list of elements that the stream spells from the
start on and that the requested length has room for. Every other such list is a
front part of it, so the requested length is covered as soon as any list can
cover it. -/
theorem decode_maximal {stream : Bytes} (requested : Nat) {start : Nat} (hstart : start ≤ stream.size) :
    ∃ decoding elements, decode stream requested start = .ok decoding ∧
      decoding.Spells stream start elements ∧ decoding.producedLength ≤ requested ∧
      (∀ others, Element.Opens 0 requested (stream.toList.drop start) others → others <+: elements) ∧
      (decoding.isComplete = true ↔
        ∃ others, Element.Opens 0 requested (stream.toList.drop start) others ∧
          Element.totalLength others = requested) := by
  have hopens := Element.opens_parse 0 requested (stream.toList.drop start)
  refine ⟨_, _, decode_eq_ok hstart, Decoding.spells_locate hstart hopens, ?_, ?_, ?_⟩
  · rw [Decoding.producedLength_locate]
    exact hopens.length_le
  · intro others hothers
    exact hothers.isPrefix_parse
  · rw [Decoding.isComplete_locate_iff]
    constructor
    · intro htotal
      exact ⟨_, hopens, htotal⟩
    · rintro ⟨others, hothers, htotal⟩
      rw [hothers.parse_eq htotal, htotal]

/-- A stray byte in front and a literal that is cut off at the end do not keep
the decoding from a literal and a copy that repeats it. -/
theorem decode_maximal_behind_stray_byte :
    1 ≤ (#[0xff, 0x00, 0x61, 0x26, 0x01, 0x00, 0x0c, 0x62] : Bytes).size ∧
      decode #[0xff, 0x00, 0x61, 0x26, 0x01, 0x00, 0x0c, 0x62] 20 1 =
        .ok ⟨[⟨1, 2, 0, .literal 1 2⟩, ⟨3, 3, 1, .copy 10 1⟩], 20, by decide⟩ ∧
      Decoding.Spells ⟨[⟨1, 2, 0, .literal 1 2⟩, ⟨3, 3, 1, .copy 10 1⟩], 20, by decide⟩
        #[0xff, 0x00, 0x61, 0x26, 0x01, 0x00, 0x0c, 0x62] 1 [.literal 0 [0x61], .copy .twoByte 10 1] ∧
      ∀ others, Element.Opens 0 20 [0x00, 0x61, 0x26, 0x01, 0x00, 0x0c, 0x62] others →
        others <+: [.literal 0 [0x61], .copy .twoByte 10 1] := by
  have hstart : 1 ≤ (#[0xff, 0x00, 0x61, 0x26, 0x01, 0x00, 0x0c, 0x62] : Bytes).size := by decide
  have hfound : decode #[0xff, 0x00, 0x61, 0x26, 0x01, 0x00, 0x0c, 0x62] 20 1 =
      .ok ⟨[⟨1, 2, 0, .literal 1 2⟩, ⟨3, 3, 1, .copy 10 1⟩], 20, by decide⟩ := by cbv
  obtain ⟨decoding, elements, hdecode, hspells, -, hmaximal, -⟩ := decode_maximal 20 hstart
  rw [hfound] at hdecode
  cases hdecode
  obtain rfl : [.literal 0 [0x61], .copy .twoByte 10 1] = elements := hspells.elements_eq
  exact ⟨hstart, hfound, hspells, hmaximal⟩

end Snappy
