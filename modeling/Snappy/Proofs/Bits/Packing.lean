import Snappy.Bits.Numeral

namespace Snappy

/-- A word made of bits has these bits, and clear ones behind them. -/
theorem wordBit_ofNat_binaryValue {bits : List Bool} (hlength : bits.length ≤ wordSize) (k : Nat) :
    wordBit (.ofNat (binaryValue bits)) k = bits[k]?.getD false := by
  have hfits : binaryValue bits < 2 ^ 64 :=
    Nat.lt_of_lt_of_le (binaryValue_lt bits) (Nat.pow_le_pow_right (by decide) hlength)
  rw [wordBit, UInt64.toNat_ofNat_of_lt' hfits, testBit_binaryValue]

/-- Bits are found where they were packed. Behind the last of them nothing is
found but clear bits. -/
theorem getD_bitAt?_pack (bits : List Bool) (k : Nat) :
    (bitAt? (pack bits) k).getD false = bits[k]?.getD false := by
  fun_induction pack bits generalizing k with
  | case1 => rfl
  | case2 bits hbits ih =>
    by_cases hk : k < wordSize
    · rw [bitAt?_cons_of_lt hk, Option.getD_some, wordBit_ofNat_binaryValue (List.length_take_le _ _),
        List.getElem?_take_of_lt hk]
    · rw [bitAt?_cons_of_le (Nat.le_of_not_lt hk), ih, List.getElem?_drop,
        Nat.add_sub_cancel' (Nat.le_of_not_lt hk)]

/-- Packing takes as many words as the bits need, the last of them filled up. -/
theorem length_pack (bits : List Bool) : (pack bits).length = (bits.length + 63) / 64 := by
  fun_induction pack bits with
  | case1 => rfl
  | case2 bits hbits ih =>
    have hpos := List.length_pos_iff.2 hbits
    rw [List.length_cons, ih, List.length_drop, wordSize]
    omega

theorem isSome_bitAt?_pack {bits : List Bool} {k : Nat} (hk : k < bits.length) :
    (bitAt? (pack bits) k).isSome = true := by
  rw [Option.isSome_iff_ne_none, ne_eq, bitAt?_eq_none_iff, length_pack, wordSize]
  omega

/-- Packed bits come back in their order, with the clear bits of the last word
behind them. -/
theorem bitsFromEnd_pack (bits : List Bool) :
    (BitString.mk (pack bits)).bitsFromEnd =
      bits ++ List.replicate ((BitString.mk (pack bits)).length - bits.length) false := by
  have hroom : bits.length ≤ (BitString.mk (pack bits)).length := by
    rw [BitString.length, length_pack, wordSize]
    omega
  apply List.ext_getElem
  · rw [BitString.length_bitsFromEnd, List.length_append, List.length_replicate]
    omega
  intro k hk _
  rw [BitString.length_bitsFromEnd] at hk
  have hfound : (BitString.mk (pack bits)).bitsFromEnd[k]?.getD false = bits[k]?.getD false := by
    rw [BitString.getElem?_bitsFromEnd]
    exact getD_bitAt?_pack bits k
  rw [List.getElem?_eq_getElem (by rwa [BitString.length_bitsFromEnd]), Option.getD_some] at hfound
  rw [hfound, List.getElem_append]
  split
  · rename_i hwithin
    rw [List.getElem?_eq_getElem hwithin, Option.getD_some]
  · rename_i hbehind
    rw [List.getElem?_eq_none (Nat.le_of_not_lt hbehind), Option.getD_none, List.getElem_replicate]

theorem eq_of_wordBit_eq {word other : UInt64}
    (hbits : ∀ k < wordSize, wordBit word k = wordBit other k) : word = other := by
  apply UInt64.toNat_inj.1
  apply Nat.eq_of_testBit_eq
  intro k
  by_cases hk : k < wordSize
  · exact hbits k hk
  · have hpow : 2 ^ 64 ≤ 2 ^ k := Nat.pow_le_pow_right (by decide) (Nat.le_of_not_lt hk)
    rw [Nat.testBit_lt_two_pow (Nat.lt_of_lt_of_le word.toNat_lt hpow),
      Nat.testBit_lt_two_pow (Nat.lt_of_lt_of_le other.toNat_lt hpow)]

/-- As many words with the same bits are the same words. -/
theorem eq_of_bitAt?_eq {words other : List UInt64} (hlength : words.length = other.length)
    (hbits : ∀ k, (bitAt? words k).getD false = (bitAt? other k).getD false) : words = other := by
  apply List.ext_getElem hlength
  intro index hindex hother
  apply eq_of_wordBit_eq
  intro k hk
  have hword : (wordSize * index + k) / wordSize = index := by
    simp only [wordSize] at hk ⊢
    omega
  have hplace : (wordSize * index + k) % wordSize = k := by
    simp only [wordSize] at hk ⊢
    omega
  have hbit := hbits (wordSize * index + k)
  rwa [bitAt?, bitAt?, hword, hplace, List.getElem?_eq_getElem hindex,
    List.getElem?_eq_getElem hother] at hbit

end Snappy
