import Snappy.Proofs.Block.Body
import Snappy.Proofs.Decoding.Provenance

namespace Snappy

/-- Behind a header that can be read, the only error is that the elements do not
cover the block: decoding starts within the block, and what is found there is
expanded over the bytes that it was found in. -/
theorem ok_or_corrupt_of_read {block : Bytes} {header : Header}
    (hread : Header.read block = .ok header) :
    (∃ output, decompress block = .ok output) ∨ decompress block = .error .corrupt := by
  obtain ⟨front, body, hblock, hdeclares, -⟩ := Header.declares_of_read hread
  rw [decompress_eq_ite hdeclares hblock]
  split
  · exact .inl ⟨_, rfl⟩
  · exact .inr rfl

/-- Every other error comes from the header. -/
theorem decompress_eq_error_iff {block : Bytes} {error : Error} (hne : error ≠ .corrupt) :
    decompress block = .error error ↔ Header.read block = .error error := by
  constructor
  · intro hrefused
    cases hread : Header.read block with
    | error found =>
      rw [decompress_of_read_error hread] at hrefused
      cases hrefused
      rfl
    | ok header =>
      rcases ok_or_corrupt_of_read hread with ⟨output, hok⟩ | hcorrupt
      · rw [hok] at hrefused
        cases hrefused
      · rw [hcorrupt] at hrefused
        cases hrefused
        exact absurd rfl hne
  · exact decompress_of_read_error

/-- The errors that decoding and expansion have are neither those of a header nor
the one of a block that is not covered, so that no block is refused with them. -/
theorem decompress_ne_error {block : Bytes} {error : Error}
    (herror : error ∈ [Error.startBeyondStream, .literalBeyondStream, .offsetOutOfRange]) :
    decompress block ≠ .error error := by
  have hothers : ∀ other ∈ [Error.startBeyondStream, .literalBeyondStream, .offsetOutOfRange],
      other ≠ .corrupt ∧ other ≠ .headerUnterminated ∧ other ≠ .blockTooLong := by decide
  obtain ⟨hcorrupt, hunterminated, htooLong⟩ := hothers error herror
  intro hrefused
  rcases Header.read_error ((decompress_eq_error_iff hcorrupt).1 hrefused) with ⟨heq, -⟩ | ⟨heq, -⟩
  · exact hunterminated heq
  · exact htooLong heq

theorem decode_eq_error_iff {stream : Bytes} {requested start : Nat} :
    decode stream requested start = .error .startBeyondStream ↔ stream.size < start := by
  rw [decode]
  split
  · rename_i hstart
    simp only [reduceCtorEq, Nat.not_lt_of_le hstart]
  · rename_i hstart
    simp only [Nat.lt_of_not_le hstart]

/-- A decoding of what stands behind a stream does not expand over the stream. -/
theorem exists_expand_eq_beyond (stream : Bytes) :
    ∃ decoding, decode (stream ++ #[0x00, 0x61]) 1 stream.size = .ok decoding ∧
      decoding.expand stream = .error .literalBeyondStream := by
  have hstart : stream.size ≤ (stream ++ #[0x00, 0x61]).size := by
    rw [Array.size_append]
    exact Nat.le_add_right _ _
  have hbehind : (stream ++ #[0x00, 0x61]).toList.drop stream.size = [0x00, 0x61] := by
    rw [Array.toList_append, ← stream.length_toList, List.drop_left]
  have hparse : Element.parse 0 1 ((stream ++ #[0x00, 0x61]).toList.drop stream.size) =
      [.literal 0 [0x61]] := by
    rw [hbehind]
    cbv
  refine ⟨_, decode_eq_ok_of_parse hstart hparse (continues_locate (by decide) (by decide)),
    Decoding.expand_eq_beyond ?_⟩
  intro hfits
  have hwithin : stream.size + 1 + 0 + 1 ≤ stream.size := hfits _ List.mem_cons_self
  omega

/-- What becomes of a block is settled by its header first. No header, and a header
for too much, have an error each, and no block has one of them for any other
reason; every other block is decompressed, or is corrupt. Decoding has an error of
its own for every start beyond its stream, and expansion one for a decoding of a
longer stream. A symbol by itself has an error for a payload beyond the stream and
one for a copy that reaches back by nothing or before the output. These would be
passed on, but no block leads to any of them. -/
theorem decompress_outcome :
    (∀ block : Bytes,
      ((decompress block).mapError Error.message = .error "snappy: invalid varint header" ↔
        Header.Endless block.toList) ∧
      ((decompress block).mapError Error.message = .error "snappy: decoded block is too large" ↔
        Header.Excessive block.toList) ∧
      (¬ Header.Endless block.toList → ¬ Header.Excessive block.toList →
        (∃ output, decompress block = .ok output) ∨
          (decompress block).mapError Error.message = .error "snappy: corrupt input") ∧
      ∀ message ∈ ["snappy: start offset beyond end of stream",
          "snappy: literal exceeds compressed stream", "snappy: copy offset out of range"],
        (decompress block).mapError Error.message ≠ .error message) ∧
    (∀ (stream : Bytes) (requested start : Nat),
      (decode stream requested start).mapError Error.message =
        .error "snappy: start offset beyond end of stream" ↔ stream.size < start) ∧
    (∀ stream : Bytes, ∃ longer decoding, decode longer 1 stream.size = .ok decoding ∧
      (decoding.expand stream).mapError Error.message =
        .error "snappy: literal exceeds compressed stream") ∧
    ∀ (stream output : Bytes) (symbol : Symbol),
      ((symbol.contribution stream output).mapError Error.message =
        .error "snappy: literal exceeds compressed stream" ↔ ¬ symbol.FitsIn stream.size) ∧
      ((symbol.contribution stream output).mapError Error.message =
        .error "snappy: copy offset out of range" ↔ ¬ symbol.Reaches output.size) ∧
      ∀ (error : Error) (after : Bytes), (symbol.expand stream).run output = .error error after ↔
        symbol.contribution stream output = .error error ∧ after = output := by
  refine ⟨fun block => ⟨?_, ?_, ?_, ?_⟩, ?_, ?_, fun stream output symbol => ⟨?_, ?_, ?_⟩⟩
  · rw [← Header.read_eq_unterminated_iff, ← decompress_eq_error_iff (by decide)]
    exact Error.mapError_message_eq_iff _ .headerUnterminated
  · rw [← Header.read_eq_tooLong_iff, ← decompress_eq_error_iff (by decide)]
    exact Error.mapError_message_eq_iff _ .blockTooLong
  · intro hendless hexcessive
    obtain ⟨header, hread⟩ := Header.exists_read hendless hexcessive
    rcases ok_or_corrupt_of_read hread with hok | hcorrupt
    · exact .inl hok
    · exact .inr ((Error.mapError_message_eq_iff _ .corrupt).2 hcorrupt)
  · intro message hmessage
    obtain ⟨error, herror, rfl⟩ : ∃ error ∈ [Error.startBeyondStream, .literalBeyondStream,
        .offsetOutOfRange], error.message = message := List.mem_map.1 hmessage
    exact mt (Error.mapError_message_eq_iff _ error).1 (decompress_ne_error herror)
  · intro stream requested start
    rw [← decode_eq_error_iff]
    exact Error.mapError_message_eq_iff _ .startBeyondStream
  · intro stream
    obtain ⟨decoding, hdecode, hbeyond⟩ := exists_expand_eq_beyond stream
    exact ⟨_, decoding, hdecode, (Error.mapError_message_eq_iff _ .literalBeyondStream).2 hbeyond⟩
  · refine (Error.mapError_message_eq_iff _ .literalBeyondStream).trans ?_
    rw [Symbol.contribution_eq_error_iff]
    simp
  · refine (Error.mapError_message_eq_iff _ .offsetOutOfRange).trans ?_
    rw [Symbol.contribution_eq_error_iff]
    simp
  · intro error after
    exact Symbol.run_expand_eq_error_iff

/-- Two bytes that go on, one byte of length more than is allowed, and a header for
as much as is allowed that nothing follows. A decoding cannot start behind the
last of no bytes, and a copy cannot reach back by two behind a single byte. -/
theorem decompress_outcome_of_headers :
    (decompress #[0x80, 0x80]).mapError Error.message = .error "snappy: invalid varint header" ∧
      (decompress #[0x80, 0x80, 0x80, 0x80, 0x08]).mapError Error.message =
        .error "snappy: decoded block is too large" ∧
      (¬ Header.Endless [0xff, 0xff, 0xff, 0xff, 0x07] ∧
        ¬ Header.Excessive [0xff, 0xff, 0xff, 0xff, 0x07] ∧
        ((∃ output, decompress #[0xff, 0xff, 0xff, 0xff, 0x07] = .ok output) ∨
          (decompress #[0xff, 0xff, 0xff, 0xff, 0x07]).mapError Error.message =
            .error "snappy: corrupt input")) ∧
      (decompress #[0xff, 0xff, 0xff, 0xff, 0x07]).mapError Error.message ≠
        .error "snappy: start offset beyond end of stream" ∧
      (decode #[] 0 1).mapError Error.message =
        .error "snappy: start offset beyond end of stream" ∧
      ((Symbol.copy 4 2).contribution (#[] : Bytes) #[0x61]).mapError Error.message =
        .error "snappy: copy offset out of range" ∧
      ((Symbol.copy 4 2).expand (#[] : Bytes)).run #[0x61] = .error .offsetOutOfRange #[0x61] := by
  have hcontinued : Header.Endless [0x80, 0x80] := by decide
  have htooLong : Header.Excessive [0x80, 0x80, 0x80, 0x80, 0x08] := by decide
  have hendless : ¬ Header.Endless [0xff, 0xff, 0xff, 0xff, 0x07] := by decide
  have hexcessive : ¬ Header.Excessive [0xff, 0xff, 0xff, 0xff, 0x07] := by decide
  obtain ⟨houtcome, hbeyond, -, hsymbols⟩ := decompress_outcome
  obtain ⟨hunterminated, -, -, -⟩ := houtcome #[0x80, 0x80]
  obtain ⟨-, hrefused, -, -⟩ := houtcome #[0x80, 0x80, 0x80, 0x80, 0x08]
  obtain ⟨-, -, hotherwise, hnever⟩ := houtcome #[0xff, 0xff, 0xff, 0xff, 0x07]
  obtain ⟨-, hreported, hexpand⟩ := hsymbols #[] #[0x61] (.copy 4 2)
  have hrange := hreported.2 (by decide)
  exact ⟨hunterminated.2 hcontinued, hrefused.2 htooLong,
    ⟨hendless, hexcessive, hotherwise hendless hexcessive⟩, hnever _ List.mem_cons_self,
    (hbeyond #[] 0 1).2 (by decide), hrange,
    (hexpand _ _).2 ⟨(Error.mapError_message_eq_iff _ .offsetOutOfRange).1 hrange, rfl⟩⟩

end Snappy
