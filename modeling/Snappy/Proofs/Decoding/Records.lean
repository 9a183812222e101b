import Mathlib.Data.List.Basic
import Snappy.Decoding.Walk
import Snappy.Proofs.Element.Parse

namespace Snappy

@[simp]
theorem length_locate (cursor produced : Nat) (elements : List Element) :
    (locate cursor produced elements).length = elements.length := by
  induction elements generalizing cursor produced with
  | nil => rfl
  | cons element elements ih => rw [locate, List.length_cons, ih, List.length_cons]

theorem locate_append (cursor produced : Nat) (front back : List Element) :
    locate cursor produced (front ++ back) =
      locate cursor produced front ++
        locate (cursor + (Element.encodeAll front).length)
          (produced + Element.totalLength front) back := by
  induction front generalizing cursor produced with
  | nil => rfl
  | cons element front ih =>
    rw [List.cons_append, locate, ih, locate, Element.encodeAll_cons, List.length_append,
      Element.length_encode, Element.totalLength_cons, Nat.add_assoc, Nat.add_assoc, List.cons_append]

/-- The record of an element has as many records before it as there are elements
before the element. -/
theorem getElem?_locate_append_cons (start : Nat) (before after : List Element) (element : Element) :
    (locate start 0 (before ++ element :: after))[before.length]? =
      some (element.record (start + (Element.encodeAll before).length) (Element.totalLength before)) := by
  rw [locate_append, List.getElem?_append_right (Nat.le_of_eq (length_locate ..)), length_locate,
    Nat.sub_self, Nat.zero_add]
  rfl

theorem getLast?_locate_concat (cursor produced : Nat) (front : List Element) (last : Element) :
    (locate cursor produced (front ++ [last])).getLast? =
      some (last.record (cursor + (Element.encodeAll front).length)
        (produced + Element.totalLength front)) := by
  rw [locate_append, locate, locate, List.getLast?_concat]

/-- The last record ends where the elements end in the output, and there is
nothing to end without elements. -/
theorem outputEnd_getLast?_locate (cursor produced : Nat) (elements : List Element) :
    ((locate cursor produced elements).getLast?.map Record.outputEnd).getD produced =
      produced + Element.totalLength elements := by
  rcases List.eq_nil_or_concat' elements with rfl | ⟨front, last, rfl⟩
  · rfl
  · rw [getLast?_locate_concat, Option.map_some, Option.getD_some, Element.outputEnd_record,
      Element.totalLength_append, Element.totalLength_cons, Element.totalLength_nil, Nat.add_zero,
      Nat.add_assoc]

theorem cursorEnd_getLast?_locate (cursor produced : Nat) (elements : List Element) :
    ((locate cursor produced elements).getLast?.map Record.cursorEnd).getD cursor =
      cursor + (Element.encodeAll elements).length := by
  rcases List.eq_nil_or_concat' elements with rfl | ⟨front, last, rfl⟩
  · rfl
  · rw [getLast?_locate_concat, Option.map_some, Option.getD_some, Element.cursorEnd_record,
      Element.encodeAll_append, Element.encodeAll_cons, Element.encodeAll_nil, List.append_nil,
      List.length_append, Element.length_encode, Nat.add_assoc]

theorem continues_locate {limit cursor produced : Nat} {elements : List Element}
    (hsound : Element.Sound produced elements)
    (hlimit : produced + Element.totalLength elements ≤ limit) :
    Continues limit produced (locate cursor produced elements) := by
  induction elements generalizing cursor produced with
  | nil => trivial
  | cons element elements ih =>
    obtain ⟨-, hreaches, hrest⟩ := hsound
    rw [Element.totalLength_cons, ← Nat.add_assoc] at hlimit
    refine ⟨rfl, hreaches.symbolAt cursor, ?_, ?_, ?_⟩
    · rw [Element.outputEnd_record]
      omega
    · intro next hnext
      cases elements <;> cases hnext
      rfl
    · rw [Element.outputEnd_record]
      exact ih hrest hlimit

/-- What opens a stream makes up a decoding of it. -/
theorem Element.Opens.continues {requested : Nat} {input : List UInt8} {elements : List Element}
    (hopens : Element.Opens 0 requested input elements) (start : Nat) :
    Continues requested 0 (locate start 0 elements) :=
  continues_locate hopens.sound (by rw [Nat.zero_add]; exact hopens.length_le)

theorem Continues.reaches_of_mem {limit produced : Nat} {records : List Record}
    (hcontinues : Continues limit produced records) {record : Record} (hrecord : record ∈ records) :
    record.symbol.Reaches record.outputStart := by
  induction records generalizing produced with
  | nil => cases hrecord
  | cons first records ih =>
    obtain ⟨rfl, hreaches, -, -, hrest⟩ := hcontinues
    rcases List.mem_cons.1 hrecord with rfl | hrecord
    · exact hreaches
    · exact ih hrest hrecord

theorem map_length_locate (cursor produced : Nat) (elements : List Element) :
    (locate cursor produced elements).map (fun record => record.symbol.length) =
      elements.map Element.length := by
  induction elements generalizing cursor produced with
  | nil => rfl
  | cons element elements ih =>
    rw [locate, List.map_cons, List.map_cons, ih]
    exact congrArg (· :: _) (element.length_symbolAt cursor)

theorem one_le_length_of_mem_locate {cursor produced : Nat} {elements : List Element}
    (hsound : Element.Sound produced elements) :
    ∀ record ∈ locate cursor produced elements, 1 ≤ record.symbol.length := by
  intro record hrecord
  have hlength := List.mem_map_of_mem (f := fun record : Record => record.symbol.length) hrecord
  rw [map_length_locate] at hlength
  obtain ⟨element, helement, hsame⟩ := List.mem_map.1 hlength
  rw [← hsame]
  exact (hsound.valid_of_mem helement).length_pos

theorem Progress.nextElement?_eq_some_iff {progress : Progress} {input rest : List UInt8} {element : Element} :
    progress.nextElement? input = some (element, rest) ↔
      element.Valid ∧ progress.Admits element ∧ input = element.encode ++ rest := by
  simp only [nextElement?, Option.filter_eq_some_iff, Element.read?_eq_some_iff, decide_eq_true_eq]
  exact ⟨fun ⟨⟨hvalid, hinput⟩, hadmits⟩ => ⟨hvalid, hadmits, hinput⟩,
    fun ⟨hvalid, hadmits, hinput⟩ => ⟨⟨hvalid, hinput⟩, hadmits⟩⟩

/-- A walk finds the records of the elements that a parse finds. The walk also
looks whether anything remains to be produced; as no element is empty, a parse
stops there all the same. -/
theorem toList_walk (input : List UInt8) (progress : Progress) (found : Array Record) :
    (walk input progress found).toList = found.toList ++
      locate progress.cursor progress.produced
        (Element.parse progress.produced progress.remaining input) := by
  fun_induction walk input progress found with
  | case1 input progress found hdone =>
    have hopens := Element.opens_parse progress.produced progress.remaining input
    have hnone := Element.eq_nil_of_totalLength_eq_zero hopens.sound
      (by have := hopens.length_le; omega)
    rw [hnone, locate, List.append_nil]
  | case2 input progress found hwanted hstop =>
    have hparse : Element.parse progress.produced progress.remaining input = [] := by
      apply Element.parse_eq_nil
      intro element rest hread hadmits
      obtain ⟨hvalid, hinput⟩ := Element.read?_eq_some_iff.1 hread
      rw [Progress.nextElement?_eq_some_iff.2 ⟨hvalid, hadmits, hinput⟩] at hstop
      cases hstop
    rw [hparse, locate, List.append_nil]
  | case3 input progress found hwanted element rest hnext ih =>
    obtain ⟨hvalid, hadmits, hinput⟩ := Progress.nextElement?_eq_some_iff.1 hnext
    have hread := Element.read?_eq_some_iff.2 ⟨hvalid, hinput⟩
    rw [ih, Element.parse_eq_cons hread hadmits, locate, Array.toList_push, List.append_assoc]
    rfl

theorem decode_eq_ok_of_parse {stream : Bytes} {requested start : Nat} {elements : List Element}
    (hstart : start ≤ stream.size)
    (hparse : Element.parse 0 requested (stream.toList.drop start) = elements)
    (hcontinues : Continues requested 0 (locate start 0 elements)) :
    decode stream requested start = .ok ⟨locate start 0 elements, requested, hcontinues⟩ := by
  have hrecords : (walk (stream.toList.drop start) ⟨start, requested, 0⟩ #[]).toList =
      locate start 0 elements := by
    rw [toList_walk, hparse]
    rfl
  rw [decode, if_pos hstart]
  simp only [hrecords]

/-- Decoding succeeds from every position within the stream, and describes the
elements that a parse of the bytes from there on finds. -/
theorem decode_eq_ok {stream : Bytes} {requested start : Nat} (hstart : start ≤ stream.size) :
    decode stream requested start = .ok {
      records := locate start 0 (Element.parse 0 requested (stream.toList.drop start))
      requested := requested
      continues := (Element.opens_parse 0 requested _).continues start } :=
  decode_eq_ok_of_parse hstart rfl _

/-- What stands in a stream ends in it. -/
theorem add_length_le_of_isPrefix_drop {stream : Bytes} {start : Nat} {bytes : List UInt8}
    (hstart : start ≤ stream.size) (hat : bytes <+: stream.toList.drop start) :
    start + bytes.length ≤ stream.size := by
  have hlength := hat.length_le
  rw [List.length_drop, stream.length_toList] at hlength
  omega

/-- Every decoding describes elements that open the stream from its start on. -/
theorem opens_of_decode {stream : Bytes} {requested start : Nat} {decoding : Decoding}
    (hdecode : decode stream requested start = .ok decoding) :
    start ≤ stream.size ∧ ∃ elements,
      ∃ hopens : Element.Opens 0 requested (stream.toList.drop start) elements,
        decoding = ⟨locate start 0 elements, requested, hopens.continues start⟩ := by
  by_cases hstart : start ≤ stream.size
  · rw [decode_eq_ok hstart] at hdecode
    cases hdecode
    exact ⟨hstart, _, Element.opens_parse 0 requested _, rfl⟩
  · rw [decode, if_neg hstart] at hdecode
    cases hdecode

/-- Elements that stand in a stream fill the part of it from where they begin to where they
end. -/
theorem extract_eq_of_isPrefix_drop {stream : Bytes} {start : Nat} {bytes : List UInt8}
    (hat : bytes <+: stream.toList.drop start) :
    (stream.extract start (start + bytes.length)).toList = bytes := by
  rw [Array.toList_extract, List.extract_eq_take_drop, Nat.add_sub_cancel_left,
    ← List.prefix_iff_eq_take.1 hat]

namespace Decoding

section Locate

variable {requested cursor : Nat} {elements : List Element}
  {hcontinues : Continues requested 0 (locate cursor 0 elements)}

theorem producedLength_locate :
    (Decoding.mk (locate cursor 0 elements) requested hcontinues).producedLength =
      Element.totalLength elements := by
  have hend := outputEnd_getLast?_locate cursor 0 elements
  rw [Nat.zero_add] at hend
  rw [← hend, producedLength]
  cases (locate cursor 0 elements).getLast? <;> rfl

theorem endCursor?_locate :
    (Decoding.mk (locate cursor 0 elements) requested hcontinues).endCursor?.getD cursor =
      cursor + (Element.encodeAll elements).length :=
  cursorEnd_getLast?_locate cursor 0 elements

theorem isComplete_locate_iff :
    (Decoding.mk (locate cursor 0 elements) requested hcontinues).isComplete = true ↔
      Element.totalLength elements = requested := by
  rw [isComplete, producedLength_locate, beq_iff_eq]

end Locate

end Decoding

end Snappy
