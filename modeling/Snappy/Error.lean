namespace Snappy

/-- Why a block, a decoding, an expansion or a width mask is refused. -/
inductive Error where
  /-- A decoding was asked to start past the last byte of its stream. -/
  | startBeyondStream
  /-- A header declares more than the longest supported block. -/
  | blockTooLong
  /-- No byte that may end a header ends it. -/
  | headerUnterminated
  /-- The buffer given for the output is shorter than the declared length. -/
  | destinationTooShort
  /-- The elements of a block do not cover its bytes and its declared length. -/
  | corrupt
  /-- A literal's payload does not lie within the stream. -/
  | literalBeyondStream
  /-- A copy reaches before the output, or reaches back by nothing. -/
  | offsetOutOfRange
  /-- The bits ran out before the mask was full. -/
  | bitsExhausted
  deriving DecidableEq, Repr

/-- The text under which an error is reported. -/
def Error.message : Error → String
  | .startBeyondStream => "snappy: start offset beyond end of stream"
  | .blockTooLong => "snappy: decoded block is too large"
  | .headerUnterminated => "snappy: invalid varint header"
  | .destinationTooShort => "snappy: destination buffer is too short"
  | .corrupt => "snappy: corrupt input"
  | .literalBeyondStream => "snappy: literal exceeds compressed stream"
  | .offsetOutOfRange => "snappy: copy offset out of range"
  | .bitsExhausted => "snappy: len3 mask input sequence too short"

/-- Different errors are reported by different texts, so the text alone tells
which of them arose. -/
theorem Error.message_inj {e f : Error} : e.message = f.message ↔ e = f := by
  constructor
  · cases e <;> cases f <;> simp [message]
  · rintro rfl
    rfl

/-- A result that is reported under the text of an error is that error. -/
theorem Error.mapError_message_eq_iff {α : Type} (result : Except Error α) (error : Error) :
    result.mapError message = .error error.message ↔ result = .error error := by
  cases result with
  | error found =>
    change Except.error found.message = .error error.message ↔ _
    rw [Except.error.injEq, message_inj, Except.error.injEq]
  | ok output => exact ⟨nofun, nofun⟩

end Snappy
