import Snappy.Proofs.Block.Body

namespace Snappy

/-- No block is accepted that an accepted block begins, and none that begins an
accepted block. A block that is cut off within its header has no header any
more; every other cut, and everything that follows a block, corrupts it. -/
theorem decompress_prefix_free {block output : Bytes} (hok : decompress block = .ok output) :
    ∃ header, Header.read block = .ok header ∧
      (∀ k < header.width, (decompress (block.extract 0 k)).mapError Error.message =
        .error "snappy: invalid varint header") ∧
      (∀ k, header.width ≤ k → k < block.size →
        (decompress (block.extract 0 k)).mapError Error.message = .error "snappy: corrupt input") ∧
      (∀ suffix : Bytes, suffix ≠ #[] →
        (decompress (block ++ suffix)).mapError Error.message = .error "snappy: corrupt input") := by
  obtain ⟨header, body, elements, hblock, hdeclares, hfills, -⟩ := exists_fills_of_decompress hok
  have hcut (k : Nat) : (block.extract 0 k).toList = (header ++ body).take k := by
    rw [Array.toList_extract, List.extract_eq_take_drop, List.drop_zero, Nat.sub_zero, hblock]
  refine ⟨⟨output.size, header.length⟩, Header.read_of_declares hdeclares ⟨body, hblock.symm⟩,
    ?_, ?_, ?_⟩
  · intro k hk
    have hfront : (block.extract 0 k).toList = header.take k := by
      rw [hcut, List.take_append_of_le_length (Nat.le_of_lt hk)]
    rw [decompress_eq_unterminated hdeclares hk hfront]
    rfl
  · intro k hwidth hk
    have hfront : (block.extract 0 k).toList = header ++ body.take (k - header.length) := by
      rw [hcut, List.take_append, List.take_of_length_le hwidth]
    have hne : body.take (k - header.length) ≠ body := by
      intro heq
      have hlength := congrArg List.length heq
      change header.length ≤ k at hwidth
      rw [size_of_toList_append hblock] at hk
      rw [List.length_take] at hlength
      omega
    rw [decompress_eq_corrupt_of_ne hdeclares hfills hfront (.inl (List.take_prefix _ body)) hne]
    rfl
  · intro suffix hsuffix
    have hlonger : (block ++ suffix).toList = header ++ (body ++ suffix.toList) := by
      rw [Array.toList_append, hblock, List.append_assoc]
    have hne : body ++ suffix.toList ≠ body := by
      intro heq
      exact hsuffix (Array.toList_eq_nil_iff.1 (List.append_right_eq_self.1 heq))
    rw [decompress_eq_corrupt_of_ne hdeclares hfills hlonger (.inr (List.prefix_append body _)) hne]
    rfl

/-- Cut within its padded header, cut within its copy, and followed by another
literal. -/
theorem decompress_prefix_free_padded_header :
    decompress #[0x86, 0x80, 0x00, 0x00, 0x63, 0x05, 0x01] =
        .ok #[0x63, 0x63, 0x63, 0x63, 0x63, 0x63] ∧
      (decompress (#[0x86, 0x80, 0x00, 0x00, 0x63, 0x05, 0x01].extract 0 2)).mapError
        Error.message = .error "snappy: invalid varint header" ∧
      (decompress (#[0x86, 0x80, 0x00, 0x00, 0x63, 0x05, 0x01].extract 0 6)).mapError
        Error.message = .error "snappy: corrupt input" ∧
      (decompress (#[0x86, 0x80, 0x00, 0x00, 0x63, 0x05, 0x01] ++ #[0x00, 0x61])).mapError
        Error.message = .error "snappy: corrupt input" := by
  have hdeclares : Header.Declares [0x86, 0x80, 0x00] 6 := by decide
  have hfills : Element.Fills 6 [0x00, 0x63, 0x05, 0x01]
      [.literal 0 [0x63], .copy .oneByte 5 1] := by decide
  have hok : decompress #[0x86, 0x80, 0x00, 0x00, 0x63, 0x05, 0x01] =
      .ok #[0x63, 0x63, 0x63, 0x63, 0x63, 0x63] :=
    decompress_eq_ok_of_fills hdeclares rfl hfills
  obtain ⟨header, hread, hheader, hbody, hsuffix⟩ := decompress_prefix_free hok
  have hwidth : Header.read #[0x86, 0x80, 0x00, 0x00, 0x63, 0x05, 0x01] = .ok ⟨6, 3⟩ :=
    Header.read_of_declares hdeclares ⟨[0x00, 0x63, 0x05, 0x01], rfl⟩
  rw [hwidth] at hread
  cases hread
  exact ⟨hok, hheader 2 (by decide), hbody 6 (by decide) (by decide), hsuffix _ (by decide)⟩

end Snappy
