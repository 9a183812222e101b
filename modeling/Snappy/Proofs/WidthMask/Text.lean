import Snappy.Proofs.Bits.Text
import Snappy.Proofs.Checked.WidthMask
import Snappy.Proofs.WidthMask.Packing
import Snappy.WidthMask.Text

namespace Snappy.WidthMask

/-- The text of packed bits shows them, the last of them first. -/
theorem text_pack (bits : List Bool) (consumed : Nat) :
    (WidthMask.mk (pack bits) bits.length consumed).text = String.ofList (bits.reverse.map digit) := by
  have hdigits : (List.range bits.length).map
      (fun index => digit ((WidthMask.mk (pack bits) bits.length consumed).isWide index)) =
        bits.map digit := by
    apply List.ext_getElem (by simp)
    intro index hindex _
    rw [List.length_map, List.length_range] at hindex
    rw [List.getElem_map, List.getElem_range, List.getElem_map, isWide, getD_bitAt?_pack,
      List.getElem?_eq_getElem hindex]
    simp [hindex]
  rw [text, List.map_reverse, hdigits, ← List.map_reverse]

/-- A code at the end of a text is shown behind the codes before it, and uses as
many characters as it has bits. -/
theorem showBackwards_encode_append (limit : Nat) (code : WidthCode) (bits : List Bool) :
    showBackwards (limit + 1) ((code.encode ++ bits).map digit) =
      (showBackwards limit (bits.map digit)).map fun (shown, used) =>
        (shown ++ [digit code.isWide], code.size + used) := by
  cases code with
  | narrow first =>
    simp only [WidthCode.encode, List.cons_append, List.nil_append, List.map_cons, showBackwards]
    rw [if_pos (by simp [digit])]
    rfl
  | wide first second =>
    simp only [WidthCode.encode, List.cons_append, List.nil_append, List.map_cons, showBackwards]
    rw [if_pos (by simp [digit])]
    rfl

/-- One more code in front of bits whose codes are shown. -/
theorem showBackwards_succ {limit : Nat} {bits : List Bool} (code : WidthCode)
    (hbits : showBackwards limit (bits.map digit) =
      (WidthCode.readAll? limit bits).map fun (codes, rest) =>
        ((codes.map WidthCode.isWide).reverse.map digit, bits.length - rest.length)) :
    showBackwards (limit + 1) ((code.encode ++ bits).map digit) =
      (WidthCode.readAll? limit bits).map fun (codes, rest) =>
        (((code :: codes).map WidthCode.isWide).reverse.map digit,
          (code.encode ++ bits).length - rest.length) := by
  rw [showBackwards_encode_append, hbits, Option.map_map]
  refine Option.map_congr fun ⟨codes, rest⟩ hread => ?_
  have hrest : rest.length ≤ bits.length := by
    obtain ⟨-, rfl⟩ := WidthCode.readAll?_eq_some_iff.1 hread
    simp
  simp [Nat.add_sub_assoc hrest]

/-- Walking over the digits of bits shows the widths of the codes that are read
from the bits, and uses as many characters as the codes have bits. It stops
short exactly where reading does. -/
theorem showBackwards_map_digit (limit : Nat) (bits : List Bool) :
    showBackwards limit (bits.map digit) =
      (WidthCode.readAll? limit bits).map fun (codes, rest) =>
        ((codes.map WidthCode.isWide).reverse.map digit, bits.length - rest.length) := by
  fun_induction WidthCode.readAll? limit bits with
  | case1 bits => simp [showBackwards]
  | case2 limit first bits ih =>
    rw [Option.map_map]
    exact showBackwards_succ (.narrow first) ih
  | case3 limit first second bits ih =>
    rw [Option.map_map]
    exact showBackwards_succ (.wide first second) ih
  | case4 bits limit hnarrow hwide =>
    rcases WidthCode.short_of_no_code hnarrow hwide with rfl | ⟨first, behind, rfl, hshort⟩
    · rfl
    · have hcost : ¬ (if digit first == '1' then 3 else 2) ≤ (behind.map digit).length + 1 := by
        rw [List.length_map, Nat.not_le]
        cases first <;> exact hshort
      simp only [List.map_cons, showBackwards, if_neg hcost]
      rfl

/-- The text of a string of bits tells its mask. Walking over the text from its last
character backwards shows the text of the mask and uses as many characters as the mask
consumed bits, and runs out of characters exactly when the string runs out of bits. -/
theorem ofText?_text (string : BitString) (limit : Nat) :
    ofText? string.text limit =
      (read string limit).toOption.map fun mask => (mask.text, mask.consumed) := by
  rw [ofText?, BitString.reverse_text, showBackwards_map_digit, Option.map_map,
    BitString.length_bitsFromEnd, read]
  cases hread : WidthCode.readAll? limit string.bitsFromEnd with
  | none => rfl
  | some result =>
    obtain ⟨codes, rest⟩ := result
    obtain ⟨hlimit, -⟩ := WidthCode.readAll?_eq_some_iff.1 hread
    have htext : (WidthMask.mk (pack (codes.map WidthCode.isWide)) limit
        (string.length - rest.length)).text =
          String.ofList ((codes.map WidthCode.isWide).reverse.map digit) := by
      rw [← hlimit, ← List.length_map WidthCode.isWide, text_pack]
    simp only [Option.map_some, Except.toOption, htext, Function.comp_apply]

theorem read_eq_ok_or_exhausted (string : BitString) (limit : Nat) :
    (∃ mask, read string limit = .ok mask) ∨ read string limit = .error .bitsExhausted := by
  rw [read]
  split
  · exact .inl ⟨_, rfl⟩
  · exact .inr rfl

/-- No string holds bits for a limit that cannot be rounded up to whole words. -/
theorem read_eq_exhausted {string : BitString} {limit : Nat} (hlength : string.length < 2 ^ 64)
    (hlimit : 2 ^ 64 ≤ limit + 63) : read string limit = .error .bitsExhausted := by
  rcases read_eq_ok_or_exhausted string limit with ⟨mask, hread⟩ | hread
  · obtain ⟨codes, rest, hcodes, hbits, -⟩ := read_eq_ok_iff.1 hread
    have hconsumed := length_encodeAll_le hbits
    rw [WidthCode.length_encodeAll] at hconsumed
    omega
  · exact hread

/-- The computation of a mask follows the text of its string. For every limit that can be
rounded up to whole words, every build comes to a result: the mask that the walk over the
text shows, with as many bits consumed as the walk has used characters, or the error, and
this exactly if the walk runs out of characters. In no words no symbol is found. For every
other limit the walk runs out of characters as well, but the computation need not say so.
A checking build meets a fault as it rounds the limit up. A wrapping build has no words for
the mask, and looks beyond them at the first wide symbol. -/
theorem readMask_follows_text (words : List UInt64) (hlength : (BitString.mk words).length < 2 ^ 64) :
    (∀ (build : Checked.Build) (limit : UInt64), limit.toNat + 63 < 2 ^ 64 →
      ∃ result, Checked.readMask build ⟨words⟩ limit = .ok result ∧
        ofText? (BitString.mk words).text limit.toNat =
          result.toOption.map (fun mask => (mask.text, mask.consumed)) ∧
        (ofText? (BitString.mk words).text limit.toNat = none ↔ result = .error .bitsExhausted) ∧
        (words = [] → 0 < limit → result = .error .bitsExhausted)) ∧
    ∀ limit : UInt64, 2 ^ 64 ≤ limit.toNat + 63 →
      ofText? (BitString.mk words).text limit.toNat = none ∧
      Checked.readMask .checking ⟨words⟩ limit = .error .overflow ∧
      Checked.readMask .wrapping ⟨words⟩ limit =
        if WidthCode.meetsWide (BitString.mk words).bitsFromEnd then .error .outOfBounds
        else .ok (.error .bitsExhausted) := by
  constructor
  · intro build limit hlimit
    refine ⟨_, Checked.readMask_eq_ok_read build hlimit hlength, ofText?_text _ _, ?_, ?_⟩
    · rw [ofText?_text]
      rcases read_eq_ok_or_exhausted ⟨words⟩ limit.toNat with ⟨mask, hread⟩ | hread
      · simp [hread, Except.toOption]
      · simp [hread, Except.toOption]
    · rintro rfl hpositive
      obtain ⟨count, hcount⟩ := Nat.exists_eq_add_one_of_ne_zero
        (Nat.ne_of_gt (UInt64.lt_iff_toNat_lt.1 hpositive))
      rw [hcount]
      rfl
  · intro limit hlimit
    have hwhole : (BitString.mk words).bitsFromEnd.take ((BitString.mk words).length % 2 ^ 64) =
        (BitString.mk words).bitsFromEnd := by
      rw [Nat.mod_eq_of_lt hlength]
      exact List.take_of_length_le (Nat.le_of_eq (BitString.length_bitsFromEnd _))
    refine ⟨?_, Checked.readMask_checking_eq_overflow _ hlimit, ?_⟩
    · rw [ofText?_text, read_eq_exhausted hlength hlimit]
      rfl
    · rw [Checked.readMask_wrapping_eq_ite _ hlimit, hwhole]

/-- Three symbols in six bits and a seventh; a limit for which the word does not suffice;
and the greatest limit, for which a wrapping build runs out of bits only where no symbol is
wide. -/
theorem readMask_follows_text_of_one_word :
    (BitString.mk [0x16]).length < 2 ^ 64 ∧
      ((3 : UInt64).toNat + 63 < 2 ^ 64 ∧
        ofText? (BitString.mk [0x16]).text 3 = some ("010", 7) ∧
        ∃ mask, Checked.readMask .wrapping ⟨[0x16]⟩ 3 = .ok (.ok mask) ∧ mask.text = "010" ∧
          mask.consumed = 7) ∧
      ((40 : UInt64).toNat + 63 < 2 ^ 64 ∧ ofText? (BitString.mk [0x16]).text 40 = none ∧
        Checked.readMask .checking ⟨[0x16]⟩ 40 = .ok (.error .bitsExhausted)) ∧
      2 ^ 64 ≤ (0xffffffffffffffff : UInt64).toNat + 63 ∧
      Checked.readMask .wrapping ⟨[0x2]⟩ 0xffffffffffffffff = .ok (.error .bitsExhausted) := by
  have hlength : (BitString.mk [0x16]).length < 2 ^ 64 := by decide
  have hthree : (3 : UInt64).toNat + 63 < 2 ^ 64 := by decide
  have hforty : (40 : UInt64).toNat + 63 < 2 ^ 64 := by decide
  have hgreatest : 2 ^ 64 ≤ (0xffffffffffffffff : UInt64).toNat + 63 := by decide
  have hshown : ofText? (BitString.mk [0x16]).text 3 = some ("010", 7) := by cbv
  have hshort : ofText? (BitString.mk [0x16]).text 40 = none := by cbv
  obtain ⟨hrounded, -⟩ := readMask_follows_text [0x16] hlength
  obtain ⟨-, hbeyond⟩ := readMask_follows_text [0x2] (by decide)
  obtain ⟨three, hthreeRun, hthreeText, -, -⟩ := hrounded .wrapping 3 hthree
  obtain ⟨forty, hfortyRun, -, hfortyText, -⟩ := hrounded .checking 40 hforty
  obtain ⟨-, -, hwrapping⟩ := hbeyond _ hgreatest
  rw [if_neg (by decide +kernel)] at hwrapping
  refine ⟨hlength, ⟨hthree, hshown, ?_⟩, ⟨hforty, hshort, ?_⟩, hgreatest, hwrapping⟩
  · cases three with
    | error error =>
      have hnone := hshown.symm.trans hthreeText
      cases hnone
    | ok mask =>
      obtain ⟨htext, hconsumed⟩ := Prod.mk.inj (Option.some.inj (hshown.symm.trans hthreeText))
      exact ⟨mask, hthreeRun, htext.symm, hconsumed.symm⟩
  · rw [hfortyRun, hfortyText.1 hshort]

/-- Where the rounding fails, the walk over the text fails for want of characters, and the
computation does not come to that error. -/
theorem readMask_follows_text_except_greatest_limit :
    ofText? (BitString.mk [0x1]).text (0xffffffffffffffff : UInt64).toNat = none ∧
      Checked.readMask .checking ⟨[0x1]⟩ 0xffffffffffffffff = .error .overflow ∧
      Checked.readMask .wrapping ⟨[0x1]⟩ 0xffffffffffffffff = .error .outOfBounds := by
  have hlength : (BitString.mk [0x1]).length < 2 ^ 64 := by decide
  have hgreatest : 2 ^ 64 ≤ (0xffffffffffffffff : UInt64).toNat + 63 := by decide
  refine ⟨?_, Checked.readMask_checking_eq_overflow _ hgreatest, ?_⟩
  · rw [ofText?_text, read_eq_exhausted hlength hgreatest]
    rfl
  · rw [Checked.readMask_wrapping_eq_ite _ hgreatest, if_pos (by decide +kernel)]

section Codes

variable {codes others : List WidthCode}

end Codes

end Snappy.WidthMask
