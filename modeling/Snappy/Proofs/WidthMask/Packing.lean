import Snappy.Proofs.WidthMask.Codes

namespace Snappy

namespace WidthCode

/-- A first bit with as many bits behind it as it announces is a code. -/
theorem exists_encode_append {code : WidthCode} {bits : List Bool} (hfirst : bits[0]? = some code.isWide)
    (hlength : code.size ≤ bits.length) :
    ∃ other rest, other.isWide = code.isWide ∧ bits = encode other ++ rest := by
  cases code with
  | narrow _ =>
    match bits, hfirst, hlength with
    | false :: first :: rest, _, _ => exact ⟨.narrow first, rest, rfl, rfl⟩
  | wide _ _ =>
    match bits, hfirst, hlength with
    | true :: first :: second :: rest, _, _ => exact ⟨.wide first second, rest, rfl, rfl⟩

/-- Bits that have the first bit of each code in its place begin with codes of the same
widths, whatever lies between the places. -/
theorem exists_encodeAll_append {codes : List WidthCode} {bits : List Bool}
    (hlength : (encodeAll codes).length ≤ bits.length)
    (hplaces : ∀ (index : Nat) (hindex : index < codes.length),
      bits[(encodeAll (codes.take index)).length]? = some codes[index].isWide) :
    ∃ others rest, others.map isWide = codes.map isWide ∧ bits = encodeAll others ++ rest := by
  induction codes generalizing bits with
  | nil => exact ⟨[], bits, rfl, rfl⟩
  | cons code codes ih =>
    rw [encodeAll_cons, List.length_append, length_encode] at hlength
    have hfirst : bits[0]? = some code.isWide := hplaces 0 (Nat.zero_lt_succ _)
    obtain ⟨other, behind, hwide, rfl⟩ := exists_encode_append hfirst (by omega)
    have hsize : other.size = code.size := by
      rw [size_eq_announcedSize, size_eq_announcedSize, hwide]
    rw [List.length_append, length_encode] at hlength
    have hbehind : ∀ (index : Nat) (hindex : index < codes.length),
        behind[(encodeAll (codes.take index)).length]? = some codes[index].isWide := by
      intro index hindex
      have hplace := hplaces (index + 1) (Nat.succ_lt_succ hindex)
      rw [List.take_succ_cons, encodeAll_cons, List.length_append, length_encode, ← hsize,
        List.getElem?_append_right (by rw [length_encode]; omega), length_encode,
        Nat.add_sub_cancel_left] at hplace
      exact hplace
    obtain ⟨others, rest, hwides, rfl⟩ := ih (by omega) hbehind
    refine ⟨other :: others, rest, ?_, ?_⟩
    · rw [List.map_cons, List.map_cons, hwide, hwides]
    · rw [encodeAll_cons, List.append_assoc]

end WidthCode

namespace WidthMask

/-- A mask depends on the widths that the codes tell, and not on the symbols' own
bits. -/
theorem ofCodes_congr {codes others : List WidthCode}
    (hwides : others.map WidthCode.isWide = codes.map WidthCode.isWide) :
    ofCodes others = ofCodes codes := by
  have hlength := congrArg List.length hwides
  have hcount := congrArg (List.countP id) hwides
  rw [List.length_map, List.length_map] at hlength
  rw [List.countP_map, List.countP_map, Function.id_comp] at hcount
  rw [ofCodes, ofCodes, hwides, hlength, WidthCode.length_encodeAll, WidthCode.length_encodeAll, hlength,
    hcount]

section Read

variable {string other : BitString} {limit : Nat} {mask : WidthMask}

theorem place_lt_consumed (hread : read string limit = .ok mask) {index : Nat} (hindex : index < limit) :
    mask.place index < mask.consumed := by
  obtain ⟨codes, rest, rfl, -, rfl⟩ := read_eq_ok_iff.1 hread
  have hfirst := WidthCode.getElem?_encodeAll_append hindex []
  rw [List.append_nil] at hfirst
  rw [place_ofCodes (Nat.le_of_lt hindex)]
  exact (List.getElem?_eq_some_iff.1 hfirst).1

/-- A string with enough bits is read as another one if it has the same bits in the
places of the symbols. -/
theorem read_of_agree (hread : read string limit = .ok mask) (hlength : mask.consumed ≤ other.length)
    (hagree : ∀ index < limit, other.fromEnd? (mask.place index) = string.fromEnd? (mask.place index)) :
    read other limit = .ok mask := by
  obtain ⟨codes, rest, rfl, hbits, rfl⟩ := read_eq_ok_iff.1 hread
  rw [consumed_ofCodes, ← other.length_bitsFromEnd] at hlength
  have hplaces : ∀ (index : Nat) (hindex : index < codes.length),
      other.bitsFromEnd[(WidthCode.encodeAll (codes.take index)).length]? =
        some codes[index].isWide := by
    intro index hindex
    have hsame := hagree index hindex
    rw [place_ofCodes (Nat.le_of_lt hindex), ← other.getElem?_bitsFromEnd, ← string.getElem?_bitsFromEnd,
      hbits, WidthCode.getElem?_encodeAll_append hindex] at hsame
    exact hsame
  obtain ⟨others, behind, hwides, hother⟩ := WidthCode.exists_encodeAll_append hlength hplaces
  have hsame := ofCodes_congr hwides
  exact read_eq_ok_iff.2 ⟨others, behind, congrArg WidthMask.limit hsame, hother, hsame.symm⟩

theorem read_of_same_front (hread : read string limit = .ok mask) (hlength : mask.consumed ≤ other.length)
    (hfront : ∀ k < mask.consumed, other.fromEnd? k = string.fromEnd? k) :
    read other limit = .ok mask :=
  read_of_agree hread hlength fun _ hindex => hfront _ (place_lt_consumed hread hindex)

theorem consumed_le_length (hread : read string limit = .ok mask) : mask.consumed ≤ string.length := by
  obtain ⟨codes, rest, -, hbits, rfl⟩ := read_eq_ok_iff.1 hread
  exact length_encodeAll_le hbits

theorem read_append (hread : read string limit = .ok mask) (extra : List UInt64) :
    read ⟨string.words ++ extra⟩ limit = .ok mask := by
  have hconsumed := consumed_le_length hread
  apply read_of_same_front hread
  · simp only [BitString.length, List.length_append, wordSize] at hconsumed ⊢
    omega
  · intro k hk
    have hword : k / wordSize < string.words.length := by
      simp only [BitString.length, wordSize] at hconsumed ⊢
      omega
    rw [BitString.fromEnd?, BitString.fromEnd?, bitAt?, bitAt?, List.getElem?_append_left hword]

theorem read_take (hread : read string limit = .ok mask) {kept : Nat} (hkept : mask.consumed ≤ 64 * kept) :
    read ⟨string.words.take kept⟩ limit = .ok mask := by
  have hconsumed := consumed_le_length hread
  apply read_of_same_front hread
  · simp only [BitString.length, List.length_take, wordSize] at hconsumed ⊢
    omega
  · intro k hk
    have hword : k / wordSize < kept := by
      simp only [wordSize]
      omega
    rw [BitString.fromEnd?, BitString.fromEnd?, bitAt?, bitAt?, List.getElem?_take_of_lt hword]

end Read

theorem read_pack (codes : List WidthCode) (continuation : List Bool) :
    read ⟨pack (WidthCode.encodeAll codes ++ continuation)⟩ codes.length = .ok (ofCodes codes) := by
  apply read_eq_ok_iff.2
  exact ⟨codes, _, rfl, by rw [bitsFromEnd_pack, List.append_assoc], rfl⟩

/-- Reading a mask undoes the writing of codes into words: it gives back the widths,
whatever bits the symbols have of their own and whatever follows. And every mask comes
from such codes. It rests on their first bits only: in a string with as many bits as
the mask consumed, all others may be different, so that it does not matter which words
stand behind these, or whether any do. -/
theorem read_undoes_packing :
    (∀ (codes : List WidthCode) (continuation : List Bool), ∃ mask,
      read ⟨pack (WidthCode.encodeAll codes ++ continuation)⟩ codes.length = .ok mask ∧
        (∀ (index : Nat) (hindex : index < codes.length), mask.isWide index = codes[index].isWide) ∧
        mask.consumed = (WidthCode.encodeAll codes).length) ∧
    ∀ (string : BitString) (limit : Nat) (mask : WidthMask), read string limit = .ok mask →
      (∃ codes rest, codes.map WidthCode.isWide = (List.range limit).map mask.isWide ∧
        string.bitsFromEnd = WidthCode.encodeAll codes ++ rest ∧
        (WidthCode.encodeAll codes).length = mask.consumed) ∧
      (∀ other : BitString, mask.consumed ≤ other.length →
        (∀ index < limit, other.fromEnd? (mask.place index) = string.fromEnd? (mask.place index)) →
          read other limit = .ok mask) ∧
      (∀ extra, read ⟨string.words ++ extra⟩ limit = .ok mask) ∧
      ∀ kept, mask.consumed ≤ 64 * kept → read ⟨string.words.take kept⟩ limit = .ok mask := by
  constructor
  · intro codes continuation
    exact ⟨ofCodes codes, read_pack codes continuation, fun _ => isWide_ofCodes_of_lt, rfl⟩
  · intro string limit mask hread
    refine ⟨?_, ?_, read_append hread, fun _ => read_take hread⟩
    · obtain ⟨codes, rest, rfl, hbits, rfl⟩ := read_eq_ok_iff.1 hread
      have hwides := map_isWide_ofCodes 0 (Nat.le_refl codes.length)
      rw [Nat.sub_zero, List.take_length, List.drop_zero] at hwides
      exact ⟨codes, rest, by rw [List.range_eq_range', hwides], hbits, rfl⟩
    · intro other hlength hagree
      exact read_of_agree hread hlength hagree

/-- A wide symbol between two narrow ones. The other word has none of their own bits in
common with the first, and all bits behind them set. -/
theorem read_undoes_packing_of_other_bits :
    (1 < [WidthCode.narrow true, .wide false true, .narrow false].length ∧
      ∃ mask, read ⟨pack (WidthCode.encodeAll [.narrow true, .wide false true, .narrow false] ++ [true])⟩
          3 = .ok mask ∧ mask.isWide 1 = true ∧ mask.consumed = 7) ∧
      read ⟨[0x16]⟩ 3 = .ok ⟨[0x2], 3, 7⟩ ∧
      (7 ≤ (BitString.mk [0xffffffffffffffcc]).length ∧
        (∀ index < 3, (BitString.mk [0xffffffffffffffcc]).fromEnd? ((WidthMask.mk [0x2] 3 7).place index) =
          (BitString.mk [0x16]).fromEnd? ((WidthMask.mk [0x2] 3 7).place index)) ∧
        read ⟨[0xffffffffffffffcc]⟩ 3 = .ok ⟨[0x2], 3, 7⟩) ∧
      read ⟨[0x16] ++ [0x1]⟩ 3 = .ok ⟨[0x2], 3, 7⟩ ∧
      7 ≤ 64 * 1 ∧ read ⟨[0x16].take 1⟩ 3 = .ok ⟨[0x2], 3, 7⟩ := by
  obtain ⟨hpacked, hmasks⟩ := read_undoes_packing
  have hindex : 1 < [WidthCode.narrow true, .wide false true, .narrow false].length := by decide
  obtain ⟨mask, hwritten, hwides, hconsumed⟩ :=
    hpacked [.narrow true, .wide false true, .narrow false] [true]
  have hread : read ⟨[0x16]⟩ 3 = .ok ⟨[0x2], 3, 7⟩ :=
    read_eq_ok_iff.2 ⟨[.narrow true, .wide false true, .narrow false], List.replicate 57 false, rfl,
      by decide, by decide +kernel⟩
  obtain ⟨-, hother, hextra, hkept⟩ := hmasks ⟨[0x16]⟩ 3 _ hread
  have hlength : 7 ≤ (BitString.mk [0xffffffffffffffcc]).length := by decide
  have hagree : ∀ index < 3,
      (BitString.mk [0xffffffffffffffcc]).fromEnd? ((WidthMask.mk [0x2] 3 7).place index) =
        (BitString.mk [0x16]).fromEnd? ((WidthMask.mk [0x2] 3 7).place index) := by decide
  exact ⟨⟨hindex, mask, hwritten, hwides 1 hindex, hconsumed⟩, hread,
    ⟨hlength, hagree, hother _ hlength hagree⟩, hextra [0x1], by decide, hkept 1 (by decide)⟩

end WidthMask

end Snappy
