import Snappy.Proofs.Block.Body
import Snappy.Proofs.Element.Bound

namespace Snappy

/-- A decoding that has found anything has an end. -/
theorem Decoding.endCursor?_eq_some {decoding : Decoding} (start : Nat)
    (hfound : decoding.records ≠ []) :
    decoding.endCursor? = some (decoding.endCursor?.getD start) := by
  rw [endCursor?, List.getLast?_eq_some_getLast hfound]
  rfl

theorem map_symbol_locate_replicate_copy (cursor produced : Nat) (form : CopyForm)
    (length offset count : Nat) :
    (locate cursor produced (List.replicate count (.copy form length offset))).map Record.symbol =
      List.replicate count (.copy length offset) := by
  induction count generalizing cursor produced with
  | zero => rfl
  | succ count ih =>
    rw [List.replicate_succ, locate, List.map_cons, ih, List.replicate_succ]
    rfl

/-- The decoding has found something, up to `stop`, and what it has found does not
exceed what the bytes between `start` and there allow. -/
structure Decoding.Bounded (decoding : Decoding) (start stop : Nat) : Prop where
  endCursor?_eq : decoding.endCursor? = some stop
  starts_with_literal : ∃ first others, decoding.records = first :: others ∧
    first.symbol.isLiteral = true
  count_le_width : 2 * decoding.records.length ≤ stop - start
  count_le_length : decoding.records.length ≤ decoding.producedLength
  length_le : 3 * (decoding.producedLength - 1) ≤ 64 * (stop - start - 2)

theorem Decoding.bounded_locate {requested start : Nat} {elements : List Element}
    {hcontinues : Continues requested 0 (locate start 0 elements)} (hsound : Element.Sound 0 elements)
    (hfound : elements ≠ []) :
    (Decoding.mk (locate start 0 elements) requested hcontinues).Bounded start
      (start + (Element.encodeAll elements).length) := by
  obtain ⟨hwidth, hlength, -⟩ := hsound.bounds
  have hbound := hsound.totalLength_bound hfound
  cases elements with
  | nil => exact absurd rfl hfound
  | cons element elements =>
    obtain ⟨extra, payload, rfl⟩ := hsound.exists_literal
    have hrecords : (Decoding.mk (locate start 0 (.literal extra payload :: elements)) requested
        hcontinues).records ≠ [] := List.cons_ne_nil _ _
    have hend := endCursor?_eq_some start hrecords
    rw [endCursor?_locate] at hend
    refine ⟨hend, ⟨_, _, rfl, rfl⟩, ?_, ?_, ?_⟩
    · rwa [length_locate, Nat.add_sub_cancel_left]
    · rwa [length_locate, producedLength_locate]
    · rwa [producedLength_locate, Nat.add_sub_cancel_left]

/-- A byte and any number of copies of it reach the bound. -/
theorem decode_byteRun (byte : UInt8) (copies : Nat) :
    ∃ decoding stop,
      decode (Element.encodeAll (Element.byteRun byte copies)).toArray (1 + 64 * copies) 0 =
        .ok decoding ∧
      decoding.records.map Record.symbol = .literal 1 1 :: List.replicate copies (.copy 64 1) ∧
      decoding.endCursor? = some stop ∧ 3 * (decoding.producedLength - 1) = 64 * (stop - 2) := by
  have hopens : Element.Opens 0 (1 + 64 * copies)
      (Element.encodeAll (Element.byteRun byte copies)) (Element.byteRun byte copies) :=
    ⟨Element.sound_byteRun byte copies, Nat.le_of_eq (Element.totalLength_byteRun byte copies),
      List.prefix_rfl⟩
  have hparse := hopens.parse_eq (Element.totalLength_byteRun byte copies)
  have hdecode : decode (Element.encodeAll (Element.byteRun byte copies)).toArray
      (1 + 64 * copies) 0 = .ok _ := decode_eq_ok_of_parse (Nat.zero_le _) hparse (hopens.continues 0)
  refine ⟨_, _, hdecode, ?_, Decoding.endCursor?_eq_some 0 (List.cons_ne_nil _ _), ?_⟩
  · exact congrArg (Symbol.literal 1 1 :: ·)
      (map_symbol_locate_replicate_copy 2 1 .twoByte 64 1 copies)
  · rw [Decoding.producedLength_locate, Decoding.endCursor?_locate, Element.totalLength_byteRun,
      Element.length_encodeAll_byteRun]
    omega

theorem decompress_bound {block output : Bytes} (hok : decompress block = .ok output)
    (hnonempty : output ≠ #[]) :
    ∃ header, Header.read block = .ok header ∧ header.width + 2 ≤ block.size ∧
      3 * (output.size - 1) ≤ 64 * (block.size - header.width - 2) := by
  obtain ⟨header, body, elements, hblock, hdeclares, hfills, houtput⟩ :=
    exists_fills_of_decompress hok
  have hfound : elements ≠ [] := by
    rintro rfl
    exact hnonempty (Array.toList_eq_nil_iff.1 houtput)
  obtain ⟨hwidth, -, -⟩ := hfills.sound.bounds
  have hbound := hfills.sound.totalLength_bound hfound
  have hpos := List.length_pos_iff.2 hfound
  rw [hfills.encodeAll_eq] at hwidth hbound
  rw [hfills.totalLength_eq] at hbound
  refine ⟨_, Header.read_of_declares hdeclares ⟨body, hblock.symm⟩, ?_, ?_⟩
  · simp only [size_of_toList_append hblock]
    omega
  · simpa only [size_of_toList_append hblock, Nat.add_sub_cancel_left] using hbound

/-- Output is bounded by input, and by nothing that the input announces. Each
symbol that is found takes two bytes at least and adds one at least, the first is
a literal, and behind its first byte the output is never longer than 64 bytes for
each three bytes behind the first two. A byte that is copied over and over reaches
this bound, with any number of copies. The output of an accepted block keeps to it
whatever length its header declares. -/
theorem output_bounded_by_input :
    (∀ (stream : Bytes) (requested start : Nat), start ≤ stream.size →
      ∃ decoding, decode stream requested start = .ok decoding ∧
        (decoding.records ≠ [] → ∃ stop, decoding.Bounded start stop)) ∧
    (∀ (byte : UInt8) (copies : Nat), ∃ decoding stop,
      decode (Element.encodeAll (Element.byteRun byte copies)).toArray (1 + 64 * copies) 0 =
        .ok decoding ∧
      decoding.records.map Record.symbol = .literal 1 1 :: List.replicate copies (.copy 64 1) ∧
      decoding.endCursor? = some stop ∧ 3 * (decoding.producedLength - 1) = 64 * (stop - 2)) ∧
    ∀ block output : Bytes, decompress block = .ok output → output ≠ #[] →
      ∃ header, Header.read block = .ok header ∧ header.width + 2 ≤ block.size ∧
        3 * (output.size - 1) ≤ 64 * (block.size - header.width - 2) := by
  refine ⟨?_, decode_byteRun, ?_⟩
  · intro stream requested start hstart
    have hopens := Element.opens_parse 0 requested (stream.toList.drop start)
    refine ⟨_, decode_eq_ok hstart, fun hfound =>
      ⟨_, Decoding.bounded_locate hopens.sound ?_⟩⟩
    intro hnone
    have hempty : locate start 0 (Element.parse 0 requested (stream.toList.drop start)) = [] := by
      rw [hnone, locate]
    exact hfound hempty
  · intro block output hok hnonempty
    exact decompress_bound hok hnonempty

/-- A letter and 64 copies of it behind a stray byte and behind a header. The bound
is 65 bytes of output for five bytes of input. -/
theorem output_bounded_by_input_of_copied_letter :
    1 ≤ (#[0xff, 0x00, 0x61, 0xfe, 0x01, 0x00] : Bytes).size ∧
      (∃ decoding stop, decode #[0xff, 0x00, 0x61, 0xfe, 0x01, 0x00] 80 1 = .ok decoding ∧
        decoding.records = [⟨1, 2, 0, .literal 1 2⟩, ⟨3, 3, 1, .copy 64 1⟩] ∧
        decoding.Bounded 1 stop) ∧
      ∃ output header, decompress #[0x41, 0x00, 0x61, 0xfe, 0x01, 0x00] = .ok output ∧
        output ≠ #[] ∧ Header.read #[0x41, 0x00, 0x61, 0xfe, 0x01, 0x00] = .ok header ∧
        3 * (output.size - 1) ≤ 64 * (6 - header.width - 2) := by
  obtain ⟨hdecoded, -, haccepted⟩ := output_bounded_by_input
  have hstart : 1 ≤ (#[0xff, 0x00, 0x61, 0xfe, 0x01, 0x00] : Bytes).size := by decide
  have hfound : decode #[0xff, 0x00, 0x61, 0xfe, 0x01, 0x00] 80 1 =
      .ok ⟨[⟨1, 2, 0, .literal 1 2⟩, ⟨3, 3, 1, .copy 64 1⟩], 80, by decide⟩ := by cbv
  obtain ⟨decoding, hdecode, hbound⟩ := hdecoded _ 80 1 hstart
  rw [hfound] at hdecode
  cases hdecode
  obtain ⟨stop, hbounded⟩ := hbound (List.cons_ne_nil _ _)
  have hdeclares : Header.Declares [0x41] 65 := by decide
  have hfills : Element.Fills 65 [0x00, 0x61, 0xfe, 0x01, 0x00] (Element.byteRun 0x61 1) := by
    decide
  have hok : decompress #[0x41, 0x00, 0x61, 0xfe, 0x01, 0x00] =
      .ok (Element.expandAll [] (Element.byteRun 0x61 1)).toArray :=
    decompress_eq_ok_of_fills hdeclares rfl hfills
  have hnonempty : (Element.expandAll [] (Element.byteRun 0x61 1)).toArray ≠ #[] := by
    intro hempty
    have hsize := hfills.length_expandAll
    rw [List.toArray_eq_iff.1 hempty] at hsize
    cases hsize
  obtain ⟨header, hread, -, hsize⟩ := haccepted _ _ hok hnonempty
  exact ⟨hstart, ⟨_, stop, hfound, rfl, hbounded⟩, _, header, hok, hnonempty, hread, hsize⟩

end Snappy
