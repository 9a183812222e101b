import Snappy.Proofs.Checked.Expansion

namespace Snappy

namespace Symbol

section Runs

variable {α : Type} {stream output after : Array α} {length start offset : Nat}

theorem run_expand_literal (output : Array α) (hfits : start + length ≤ stream.size) :
    ((literal length start).expand stream).run output =
      .ok () (output ++ stream.extract start (start + length)) := by
  rw [run_expand, contribution_literal output hfits]

theorem run_expand_copy (stream : Array α) (length : Nat)
    (hreaches : 1 ≤ offset ∧ offset ≤ output.size) :
    ((copy length offset).expand stream).run output = .ok () (appendCopy offset length output) := by
  rw [run_expand, contribution, dif_pos hreaches, appendCopy_eq_append_periodicWindow hreaches]

theorem run_expand_copy_refused (stream : Array α) (length : Nat)
    (hbehind : ¬ (1 ≤ offset ∧ offset ≤ output.size)) :
    ((copy length offset).expand stream).run output = .error .offsetOutOfRange output := by
  have hrefused : ¬ (copy length offset).Reaches output.size := hbehind
  rw [run_expand, contribution_eq_outOfRange stream hrefused]

theorem size_of_run_expand {symbol : Symbol}
    (hrun : (symbol.expand stream).run output = .ok () after) :
    after.size = output.size + symbol.length := by
  rw [run_expand] at hrun
  split at hrun
  · rename_i added hadded
    cases hrun
    rw [Array.size_append, size_of_contribution hadded]
  · cases hrun

/-- The two parts, expanded one after the other, leave the buffer that the whole
leaves. -/
def SplitsInto (whole first second : Symbol) (stream output : Array α) : Prop :=
  ∃ middle final, (first.expand stream).run output = .ok () middle ∧
    (second.expand stream).run middle = .ok () final ∧
    (whole.expand stream).run output = .ok () final

theorem literal_splitsInto {a b : Nat} (output : Array α) (hfits : start + a + b ≤ stream.size) :
    (literal (a + b) start).SplitsInto (literal a start) (literal b (start + a)) stream output := by
  refine ⟨_, _, run_expand_literal output (by omega), run_expand_literal _ hfits, ?_⟩
  have hparts : stream.extract start (start + a) ++ stream.extract (start + a) (start + a + b) =
      stream.extract start (start + (a + b)) := by
    rw [Array.extract_append_extract, Nat.min_eq_left (Nat.le_add_right _ _),
      Nat.max_eq_right (Nat.le_add_right _ _), Nat.add_assoc]
  rw [run_expand_literal output (by omega), Array.append_assoc, hparts]

theorem copy_splitsInto (stream : Array α) (a b : Nat)
    (hreaches : 1 ≤ offset ∧ offset ≤ output.size) :
    (copy (a + b) offset).SplitsInto (copy a offset) (copy b offset) stream output := by
  have hgrown : 1 ≤ offset ∧ offset ≤ (appendCopy offset a output).size := by
    rw [size_appendCopy hreaches]
    omega
  refine ⟨_, _, run_expand_copy stream a hreaches, run_expand_copy stream b hgrown, ?_⟩
  rw [run_expand_copy stream (a + b) hreaches, appendCopy_add a b hreaches]

end Runs

end Symbol

/-- In machine words a symbol is expanded as it is in numbers, refusals included, if
a word has room for the output and the symbol's length together. -/
theorem Checked.expand_eq_ok_of_room {stream output : Bytes} {word : WordSymbol}
    (hstream : stream.size < 2 ^ 64) (hroom : output.size + word.symbol.length < 2 ^ 64) :
    expand stream output word = .ok ((word.symbol.expand stream).run output) := by
  apply expand_eq_ok hstream (by omega)
  intro added hadded
  rw [Array.size_append, Symbol.size_of_contribution hadded]
  exact hroom

namespace Symbol

/-- A copy can be cut in two at any place, and so can a literal whose payload lies
within the stream: the parts, one after the other, do what the whole does. A copy
that reaches back by nothing or before the output is refused, and so are its parts,
without a byte written. In machine words the whole may take the way of a copy that
overlaps itself where a part takes the way of one that does not; each of the three
does there what it does in numbers, refusals included. -/
theorem expand_split (stream output : Bytes) :
    (∀ a b offset, 1 ≤ offset → offset ≤ output.size →
      (copy (a + b) offset).SplitsInto (copy a offset) (copy b offset) stream output) ∧
    (∀ length offset, offset = 0 ∨ output.size < offset →
      ((copy length offset).expand stream).run output = .error .offsetOutOfRange output) ∧
    (∀ a b start, start + a + b ≤ stream.size →
      (literal (a + b) start).SplitsInto (literal a start) (literal b (start + a)) stream output) ∧
    ∀ whole first second : Checked.WordSymbol, stream.size < 2 ^ 64 →
      output.size + whole.symbol.length < 2 ^ 64 →
      first.symbol.length + second.symbol.length = whole.symbol.length →
        Checked.expand stream output whole = .ok ((whole.symbol.expand stream).run output) ∧
        Checked.expand stream output first = .ok ((first.symbol.expand stream).run output) ∧
        ∀ middle, (first.symbol.expand stream).run output = .ok () middle →
          Checked.expand stream middle second = .ok ((second.symbol.expand stream).run middle) := by
  refine ⟨?_, ?_, ?_, ?_⟩
  · intro a b offset hpos hoffset
    exact copy_splitsInto stream a b ⟨hpos, hoffset⟩
  · intro length offset hrefused
    exact run_expand_copy_refused stream length (by omega)
  · intro a b start hfits
    exact literal_splitsInto output hfits
  · intro whole first second hstream hroom hlength
    refine ⟨Checked.expand_eq_ok_of_room hstream hroom,
      Checked.expand_eq_ok_of_room hstream (by omega), ?_⟩
    intro middle hfirst
    have hgrown := size_of_run_expand hfirst
    exact Checked.expand_eq_ok_of_room hstream (by omega)

/-- Seven bytes copied from two places back, cut behind the second: the first part
does not overlap itself, the second does. With an offset of four all of them are
refused. A payload of three bytes is cut behind the first. -/
theorem expand_split_of_overlap :
    (1 ≤ 2 ∧ 2 ≤ (#[0x61, 0x62, 0x63] : Bytes).size ∧
      (copy (2 + 5) 2).SplitsInto (copy 2 2) (copy 5 2) (#[0x64, 0x65, 0x66] : Bytes)
        #[0x61, 0x62, 0x63]) ∧
      ((#[0x61, 0x62, 0x63] : Bytes).size < 4 ∧
        ((copy 7 4).expand (#[0x64, 0x65, 0x66] : Bytes)).run #[0x61, 0x62, 0x63] =
          .error .offsetOutOfRange #[0x61, 0x62, 0x63]) ∧
      (0 + 1 + 2 ≤ (#[0x64, 0x65, 0x66] : Bytes).size ∧
        (literal (1 + 2) 0).SplitsInto (literal 1 0) (literal 2 (0 + 1))
          (#[0x64, 0x65, 0x66] : Bytes) #[0x61, 0x62, 0x63]) ∧
      (Checked.expand #[0x64, 0x65, 0x66] #[0x61, 0x62, 0x63] (.copy 7 2) =
          .ok (.ok () #[0x61, 0x62, 0x63, 0x62, 0x63, 0x62, 0x63, 0x62, 0x63, 0x62]) ∧
        Checked.expand #[0x64, 0x65, 0x66] #[0x61, 0x62, 0x63] (.copy 2 2) =
          .ok (.ok () #[0x61, 0x62, 0x63, 0x62, 0x63]) ∧
        Checked.expand #[0x64, 0x65, 0x66] #[0x61, 0x62, 0x63, 0x62, 0x63] (.copy 5 2) =
          .ok (.ok () #[0x61, 0x62, 0x63, 0x62, 0x63, 0x62, 0x63, 0x62, 0x63, 0x62])) ∧
      Checked.expand #[0x64, 0x65, 0x66] #[0x61, 0x62, 0x63] (.copy 7 4) =
        .ok (.error .offsetOutOfRange #[0x61, 0x62, 0x63]) := by
  have hoffset : 2 ≤ (#[0x61, 0x62, 0x63] : Bytes).size := by decide
  have hbehind : (#[0x61, 0x62, 0x63] : Bytes).size < 4 := by decide
  have hfits : 0 + 1 + 2 ≤ (#[0x64, 0x65, 0x66] : Bytes).size := by decide
  obtain ⟨hcopy, hrefused, hliteral, hwords⟩ :=
    expand_split #[0x64, 0x65, 0x66] #[0x61, 0x62, 0x63]
  obtain ⟨hwhole, hfirst, hsecond⟩ :=
    hwords (.copy 7 2) (.copy 2 2) (.copy 5 2) (by decide) (by decide) rfl
  obtain ⟨hrefusal, -, -⟩ := hwords (.copy 7 4) (.copy 2 4) (.copy 5 4) (by decide) (by decide) rfl
  exact ⟨⟨by decide, hoffset, hcopy 2 5 2 (by decide) hoffset⟩,
    ⟨hbehind, hrefused 7 4 (.inr hbehind)⟩, ⟨hfits, hliteral 1 2 0 hfits⟩,
    ⟨hwhole, hfirst, hsecond #[0x61, 0x62, 0x63, 0x62, 0x63] rfl⟩, hrefusal⟩

end Symbol

end Snappy
