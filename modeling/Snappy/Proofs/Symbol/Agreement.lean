import Snappy.Proofs.Checked.Expansion

namespace Snappy

namespace Symbol

section Buffer

variable {α : Type}

/-- The symbol adds these items to the output, whether it is asked for them or
expanded onto the buffer. A literal adds its payload. Behind a copy each item is
the one that lies `offset` places before it, also where that item has been added
by the same copy. -/
structure Adds (symbol : Symbol) (stream output added : Array α) : Prop where
  contribution_eq : symbol.contribution stream output = .ok added
  run_eq : (symbol.expand stream).run output = .ok () (output ++ added)
  size_eq : added.size = symbol.length
  payload_eq : ∀ length start, symbol = .literal length start →
    added = stream.extract start (start + length)
  copied_eq : ∀ length offset, symbol = .copy length offset → ∀ position, output.size ≤ position →
    position < (output ++ added).size →
      (output ++ added)[position]? = (output ++ added)[position - offset]?

/-- The symbol is refused, whether it is asked for its items or expanded, and the
buffer stays as it is. -/
structure Refused (symbol : Symbol) (stream output : Array α) (error : Error) : Prop where
  contribution_eq : symbol.contribution stream output = .error error
  run_eq : (symbol.expand stream).run output = .error error output

theorem adds_of_contribution {symbol : Symbol} {stream output added : Array α}
    (hadded : symbol.contribution stream output = .ok added) : symbol.Adds stream output added := by
  refine ⟨hadded, ?_, size_of_contribution hadded, ?_, ?_⟩
  · rw [run_expand, hadded]
  · rintro length start rfl
    rw [contribution] at hadded
    split at hadded
    · rename_i payload hpayload
      cases hadded
      exact (slice?_eq_some_iff.1 hpayload).2
    · cases hadded
  · rintro length offset rfl position hlow hhigh
    rw [contribution] at hadded
    split at hadded
    · rename_i hreaches
      cases hadded
      rw [Array.size_append, size_periodicWindow] at hhigh
      exact getElem?_append_periodicWindow hreaches hlow hhigh
    · cases hadded

theorem refused_of_contribution {symbol : Symbol} {stream output : Array α} {error : Error}
    (herror : symbol.contribution stream output = .error error) :
    symbol.Refused stream output error := by
  refine ⟨herror, ?_⟩
  rw [run_expand, herror]

end Buffer

/-- Asking a symbol for its items and expanding it come to the same. Either both
succeed, or both are refused with the same error and nothing is written; a literal
is refused exactly if its payload does not lie within the stream, and a copy
exactly if it reaches back by nothing or before the output, whatever its length.
So do the two in machine words, for all their shortcuts, as long as the longer
output has a size that fits in a word. -/
theorem expand_appends_contribution (symbol : Symbol) (stream output : Bytes) :
    (symbol.FitsIn stream.size → symbol.Reaches output.size →
      ∃ added, symbol.Adds stream output added) ∧
    (¬ symbol.FitsIn stream.size → symbol.Refused stream output .literalBeyondStream) ∧
    (¬ symbol.Reaches output.size → symbol.Refused stream output .offsetOutOfRange) ∧
    ∀ word : Checked.WordSymbol, word.symbol = symbol → stream.size < 2 ^ 64 → output.size < 2 ^ 64 →
      (∀ added, symbol.Adds stream output added → (output ++ added).size < 2 ^ 64) →
        Checked.contribution stream output word = .ok (symbol.contribution stream output) ∧
        Checked.expand stream output word = .ok ((symbol.expand stream).run output) := by
  refine ⟨?_, ?_, ?_, ?_⟩
  · intro hfits hreaches
    obtain ⟨added, hadded⟩ := exists_contribution hfits hreaches
    exact ⟨added, adds_of_contribution hadded⟩
  · intro hbeyond
    exact refused_of_contribution (contribution_eq_beyond output hbeyond)
  · intro hbehind
    exact refused_of_contribution (contribution_eq_outOfRange stream hbehind)
  · rintro word rfl hstream houtput hroom
    refine ⟨Checked.contribution_eq_ok hstream houtput word, Checked.expand_eq_ok hstream houtput ?_⟩
    intro added hadded
    exact hroom added (adds_of_contribution hadded)

/-- Two letters repeated over five, by a copy that reads what it has just written;
and a payload whose end does not fit in a word. -/
theorem expand_appends_contribution_of_overlap :
    ((copy 5 2).FitsIn (#[] : Bytes).size ∧ (copy 5 2).Reaches (#[0x61, 0x62, 0x63] : Bytes).size ∧
      (∃ added : Bytes, (copy 5 2).Adds #[] #[0x61, 0x62, 0x63] added) ∧
      Checked.contribution #[] #[0x61, 0x62, 0x63] (.copy 5 2) =
        .ok (.ok #[0x62, 0x63, 0x62, 0x63, 0x62]) ∧
      Checked.expand #[] #[0x61, 0x62, 0x63] (.copy 5 2) =
        .ok (.ok () #[0x61, 0x62, 0x63, 0x62, 0x63, 0x62, 0x63, 0x62])) ∧
      ¬ (literal 0xffffffffffffffff 1).FitsIn (#[0x64, 0x65] : Bytes).size ∧
      (literal 0xffffffffffffffff 1).Refused (#[0x64, 0x65] : Bytes) #[0x61] .literalBeyondStream ∧
      Checked.expand #[0x64, 0x65] #[0x61] (.literal 0xffffffffffffffff 1) =
        .ok (.error .literalBeyondStream #[0x61]) := by
  have hreaches : (copy 5 2).Reaches (#[0x61, 0x62, 0x63] : Bytes).size := ⟨by decide, by decide⟩
  have hbeyond : ¬ (literal 0xffffffffffffffff 1).FitsIn (#[0x64, 0x65] : Bytes).size := by decide
  obtain ⟨haccepted, -, -, hwords⟩ :=
    expand_appends_contribution (copy 5 2) #[] #[0x61, 0x62, 0x63]
  obtain ⟨-, hrefused, -, hwords'⟩ :=
    expand_appends_contribution (literal 0xffffffffffffffff 1) #[0x64, 0x65] #[0x61]
  obtain ⟨hadded, hrun⟩ := hwords (.copy 5 2) rfl (by decide) (by decide) (by
    intro added hadds
    rw [Array.size_append, hadds.size_eq]
    decide)
  obtain ⟨-, hrun'⟩ := hwords' (.literal 0xffffffffffffffff 1) rfl (by decide) (by decide) (by
    intro added hadds
    cases (hrefused hbeyond).contribution_eq.symm.trans hadds.contribution_eq)
  rw [(hrefused hbeyond).run_eq] at hrun'
  exact ⟨⟨trivial, hreaches, haccepted trivial hreaches, hadded, hrun⟩, hbeyond, hrefused hbeyond, hrun'⟩

end Symbol

end Snappy
