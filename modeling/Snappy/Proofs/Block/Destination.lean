import Snappy.Proofs.Block.Body

namespace Snappy

variable {block buffer output : Bytes} {header : Header} {error : Error}

/-- The output stands at the front of a buffer that is otherwise what it was. -/
structure Overwritten (output before after : Bytes) : Prop where
  fits : output.size ≤ before.size
  size_eq : after.size = before.size
  front_eq : after.extract 0 output.size = output
  rest_eq : after.extract output.size = before.extract output.size

theorem overwritten_overwriteFront (hfits : output.size ≤ buffer.size) :
    Overwritten output buffer (overwriteFront output buffer) where
  fits := hfits
  size_eq := by
    rw [overwriteFront, Array.size_append, Array.size_extract, Nat.min_self,
      Nat.add_sub_cancel' hfits]
  front_eq := by simp [overwriteFront]
  rest_eq := by simp [overwriteFront, Nat.add_sub_cancel' hfits]

/-- An accepted block has the output that its header declares. -/
theorem size_eq_of_decompress (hread : Header.read block = .ok header)
    (hok : decompress block = .ok output) : output.size = header.length := by
  obtain ⟨front, body, -, hblock, hdeclares, -, -⟩ := exists_fills_of_decompress hok
  have hsame := Header.read_of_declares hdeclares ⟨body, hblock.symm⟩
  rw [hread] at hsame
  cases hsame
  rfl

theorem run_ofExcept {ε σ α : Type} (result : Except ε α) (state : σ) :
    (MonadExcept.ofExcept result : EStateM ε σ α).run state =
      match result with
      | .ok value => .ok value state
      | .error error => .error error state := by
  cases result <;> rfl

/-- The reasons for refusal in the order in which they are looked for. -/
theorem run_decompressInto (block buffer : Bytes) :
    (decompressInto block).run buffer =
      match Header.read block with
      | .error error => .error error buffer
      | .ok header =>
        if buffer.size < header.length then .error .destinationTooShort buffer
        else match decompress block with
          | .error error => .error error buffer
          | .ok output => .ok output.size (overwriteFront output buffer) := by
  rw [decompressInto, EStateM.run_bind, run_ofExcept]
  cases Header.read block with
  | error error => rfl
  | ok header =>
    simp only [EStateM.run_bind, EStateM.run_get]
    split
    · rfl
    · rw [EStateM.run_bind, run_ofExcept]
      cases decompress block <;> rfl

theorem decompressInto_of_header_error (buffer : Bytes) (hread : Header.read block = .error error) :
    (decompressInto block).run buffer = .error error buffer := by
  rw [run_decompressInto, hread]

theorem decompressInto_of_short (hread : Header.read block = .ok header)
    (hshort : buffer.size < header.length) :
    (decompressInto block).run buffer = .error .destinationTooShort buffer := by
  rw [run_decompressInto, hread]
  exact if_pos hshort

theorem decompressInto_of_room (hread : Header.read block = .ok header)
    (hroom : header.length ≤ buffer.size) :
    (decompressInto block).run buffer =
      match decompress block with
      | .error error => .error error buffer
      | .ok output => .ok output.size (overwriteFront output buffer) := by
  rw [run_decompressInto, hread]
  exact if_neg (Nat.not_lt.2 hroom)

theorem decompressInto_of_decompress (hread : Header.read block = .ok header)
    (hroom : header.length ≤ buffer.size) (hok : decompress block = .ok output) :
    ∃ after, (decompressInto block).run buffer = .ok output.size after ∧
      Overwritten output buffer after := by
  have hfits : output.size ≤ buffer.size := by
    rw [size_eq_of_decompress hread hok]
    exact hroom
  refine ⟨overwriteFront output buffer, ?_, overwritten_overwriteFront hfits⟩
  rw [decompressInto_of_room hread hroom, hok]

/-- Whatever the run returns, either nothing was written, or the whole output of
the block was. -/
theorem decompressInto_cases (block buffer : Bytes) :
    (∃ error, (decompressInto block).run buffer = .error error buffer) ∨
      ∃ output after, decompress block = .ok output ∧
        (decompressInto block).run buffer = .ok output.size after ∧ Overwritten output buffer after := by
  cases hread : Header.read block with
  | error error => exact .inl ⟨error, decompressInto_of_header_error buffer hread⟩
  | ok header =>
    rcases Nat.lt_or_ge buffer.size header.length with hshort | hroom
    · exact .inl ⟨_, decompressInto_of_short hread hshort⟩
    · cases hdecompress : decompress block with
      | error error => exact .inl ⟨error, by rw [decompressInto_of_room hread hroom, hdecompress]⟩
      | ok output =>
        obtain ⟨after, hrun, hwritten⟩ := decompressInto_of_decompress hread hroom hdecompress
        exact .inr ⟨output, after, rfl, hrun, hwritten⟩

/-- A buffer is given the whole output of a block or is left alone. What the
header is refused for comes first, then a buffer too short for the declared
length, whatever the body is like, and last what the block is refused for. An
accepted block has the declared length, so that its output lies within the
buffer. -/
theorem decompressInto_all_or_nothing (block buffer : Bytes) :
    (∀ error, Header.read block = .error error →
        (decompressInto block).run buffer = .error error buffer) ∧
      (∀ header, Header.read block = .ok header →
        (buffer.size < header.length → ∃ error,
          (decompressInto block).run buffer = .error error buffer ∧
            error.message = "snappy: destination buffer is too short") ∧
        (header.length ≤ buffer.size →
          (∀ error, decompress block = .error error →
            (decompressInto block).run buffer = .error error buffer) ∧
          ∀ output, decompress block = .ok output → output.size = header.length ∧
            ∃ after, (decompressInto block).run buffer = .ok output.size after ∧
              Overwritten output buffer after)) ∧
      (∀ error after, (decompressInto block).run buffer = .error error after → after = buffer) ∧
      ∀ count after, (decompressInto block).run buffer = .ok count after →
        ∃ output, decompress block = .ok output ∧ count = output.size ∧
          Overwritten output buffer after := by
  refine ⟨fun error => decompressInto_of_header_error buffer, ?_, ?_, ?_⟩
  · intro header hread
    refine ⟨fun hshort => ⟨_, decompressInto_of_short hread hshort, rfl⟩, fun hroom => ⟨?_, ?_⟩⟩
    · intro error hdecompress
      rw [decompressInto_of_room hread hroom, hdecompress]
    · intro output hok
      exact ⟨size_eq_of_decompress hread hok, decompressInto_of_decompress hread hroom hok⟩
  · intro error after hrun
    rcases decompressInto_cases block buffer with ⟨_, hrefused⟩ | ⟨_, _, -, haccepted, -⟩
    · rw [hrefused] at hrun
      cases hrun
      rfl
    · rw [haccepted] at hrun
      cases hrun
  · intro count after hrun
    rcases decompressInto_cases block buffer with ⟨_, hrefused⟩ | ⟨output, _, hok, haccepted, hwritten⟩
    · rw [hrefused] at hrun
      cases hrun
    · rw [haccepted] at hrun
      cases hrun
      exact ⟨output, hok, rfl, hwritten⟩

/-- An unterminated header, a buffer of two bytes for a block that declares six
and has no body, a declared byte without a body, and a literal with a copy in a
buffer with two bytes to spare. -/
theorem decompressInto_all_or_nothing_of_run :
    Header.read #[0x80] = .error .headerUnterminated ∧
      (decompressInto #[0x80]).run #[7] = .error .headerUnterminated #[7] ∧
      Header.read #[0x06] = .ok ⟨6, 1⟩ ∧
      (∃ error, (decompressInto #[0x06]).run #[7, 8] = .error error #[7, 8] ∧
        error.message = "snappy: destination buffer is too short") ∧
      Header.read #[0x01] = .ok ⟨1, 1⟩ ∧ decompress #[0x01] = .error .corrupt ∧
      (decompressInto #[0x01]).run #[7, 8] = .error .corrupt #[7, 8] ∧
      Header.read #[0x06, 0x00, 0x63, 0x05, 0x01] = .ok ⟨6, 1⟩ ∧
      decompress #[0x06, 0x00, 0x63, 0x05, 0x01] = .ok #[0x63, 0x63, 0x63, 0x63, 0x63, 0x63] ∧
      ∃ after,
        (decompressInto #[0x06, 0x00, 0x63, 0x05, 0x01]).run #[1, 2, 3, 4, 5, 6, 7, 8] = .ok 6 after ∧
        Overwritten #[0x63, 0x63, 0x63, 0x63, 0x63, 0x63] #[1, 2, 3, 4, 5, 6, 7, 8] after := by
  have hunterminated : Header.read #[0x80] = .error .headerUnterminated := by rfl
  have hsix : Header.read #[0x06] = .ok ⟨6, 1⟩ := by rfl
  have hone : Header.read #[0x01] = .ok ⟨1, 1⟩ := by rfl
  have hcorrupt : decompress #[0x01] = .error .corrupt := by
    have hdeclares : Header.Declares [0x01] 1 := by decide
    have hfills : Element.Fills 1 [0x00, 0x63] [.literal 0 [0x63]] := by decide
    exact decompress_eq_corrupt_of_ne hdeclares hfills rfl (.inl List.nil_prefix) (by decide)
  have hblock : Header.read #[0x06, 0x00, 0x63, 0x05, 0x01] = .ok ⟨6, 1⟩ := by rfl
  have hfills : Element.Fills 6 [0x00, 0x63, 0x05, 0x01]
      [.literal 0 [0x63], .copy .oneByte 5 1] := by decide
  have hdeclares : Header.Declares [0x06] 6 := by decide
  have hok : decompress #[0x06, 0x00, 0x63, 0x05, 0x01] =
      .ok #[0x63, 0x63, 0x63, 0x63, 0x63, 0x63] := decompress_eq_ok_of_fills hdeclares rfl hfills
  have hshort := ((decompressInto_all_or_nothing #[0x06] #[7, 8]).2.1 _ hsix).1 (by decide)
  have hrefused := (((decompressInto_all_or_nothing #[0x01] #[7, 8]).2.1 _ hone).2 (by decide)).1
  have hwritten := (((decompressInto_all_or_nothing #[0x06, 0x00, 0x63, 0x05, 0x01]
    #[1, 2, 3, 4, 5, 6, 7, 8]).2.1 _ hblock).2 (by decide)).2
  exact ⟨hunterminated, (decompressInto_all_or_nothing #[0x80] #[7]).1 _ hunterminated, hsix, hshort,
    hone, hcorrupt, hrefused _ hcorrupt, hblock, hok, (hwritten _ hok).2⟩

end Snappy
