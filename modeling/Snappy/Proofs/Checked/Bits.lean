import Snappy.Checked.WidthMask
import Snappy.Proofs.Bits.Packing
import Snappy.Proofs.Checked.Arithmetic

namespace Snappy.Checked

theorem toNat_ofNat_div {index : Nat} (hindex : index < 2 ^ 64) :
    (UInt64.ofNat index / 64).toNat = index / wordSize := by
  rw [UInt64.toNat_div, toNat_ofNat hindex]
  rfl

theorem toNat_ofNat_mod {index : Nat} (hindex : index < 2 ^ 64) :
    (UInt64.ofNat index % 64).toNat = index % wordSize := by
  rw [UInt64.toNat_mod, toNat_ofNat hindex]
  rfl

/-- Moving a bit to the lowest place and masking it tells whether it is set. -/
theorem decide_shiftRight_and_one (word place : UInt64) (hplace : place.toNat < 64) :
    decide ((word >>> place) &&& 1 = 1) = wordBit word place.toNat := by
  have hlow : ((word >>> place) &&& 1).toNat = word.toNat / 2 ^ place.toNat % 2 := by
    rw [UInt64.toNat_and, UInt64.toNat_shiftRight, Nat.mod_eq_of_lt hplace, Nat.shiftRight_eq_div_pow]
    exact Nat.and_one_is_mod _
  rw [wordBit, Nat.testBit_eq_decide_div_mod_eq, ← hlow]
  exact decide_eq_decide.2 UInt64.toNat_inj.symm

theorem wordBit_or_one_shiftLeft (word place : UInt64) (hplace : place.toNat < 64) (k : Nat) :
    wordBit (word ||| (1 <<< place)) k = (wordBit word k || decide (k = place.toNat)) := by
  have hone : (1 <<< place : UInt64).toNat = 2 ^ place.toNat := by
    rw [UInt64.toNat_shiftLeft, Nat.mod_eq_of_lt hplace, UInt64.toNat_one, Nat.shiftLeft_eq, Nat.one_mul,
      Nat.mod_eq_of_lt (Nat.pow_lt_pow_right (by decide) hplace)]
  rw [wordBit, UInt64.toNat_or, hone, Nat.testBit_or, Nat.testBit_two_pow, wordBit]
  simp only [eq_comm]

/-- A bit that is there is looked up without a fault. -/
theorem bitAt_eq_ok {words : Array UInt64} {index : Nat} {bit : Bool} (hindex : index < 2 ^ 64)
    (hbit : bitAt? words.toList index = some bit) : bitAt words (.ofNat index) = .ok bit := by
  obtain ⟨word, hword, rfl⟩ := Option.map_eq_some_iff.1 hbit
  rw [Array.getElem?_toList, ← toNat_ofNat_div hindex] at hword
  have hplace : (UInt64.ofNat index % 64).toNat < 64 := by
    rw [toNat_ofNat_mod hindex]
    exact Nat.mod_lt index (by decide)
  rw [bitAt, itemAt, hword, ← toNat_ofNat_mod hindex, ← decide_shiftRight_and_one word _ hplace]
  rfl

/-- A bit within a string is looked up by its position without a fault. -/
theorem bit_eq_ok {string : BitString} {position : Nat} {found : Bool} (hlength : string.length < 2 ^ 64)
    (hposition : position < string.length)
    (hfound : string.fromEnd? (string.length - 1 - position) = some found) :
    bit string (.ofNat position) = .ok found := by
  rw [bit, ← UInt64.ofNat_one, sub_ofNat hlength (by omega), ok_bind, sub_ofNat (by omega) (by omega),
    ok_bind]
  exact bitAt_eq_ok (by omega) hfound

/-- No string has all positions that a word can name, so that one outside it has no
distance to its end. -/
theorem bit_eq_underflow {string : BitString} {position : UInt64}
    (hposition : string.length ≤ position.toNat) : bit string position = .error .underflow := by
  have hlength : string.length < 2 ^ 64 := Nat.lt_of_le_of_lt hposition position.toNat_lt
  by_cases hempty : string.length = 0
  · rw [bit, hempty]
    rfl
  · have hlast : sub (.ofNat string.length) 1 = .ok (.ofNat (string.length - 1)) :=
      sub_ofNat (b := 1) hlength (by omega)
    have hbeyond : sub (.ofNat (string.length - 1)) position = .error .underflow := by
      apply if_neg
      rw [UInt64.le_iff_toNat_le, toNat_ofNat (by omega)]
      omega
    rw [bit, hlast, ok_bind, hbeyond]
    rfl

/-- A bit within the words is set without a fault, and no other bit changes. -/
theorem setBit_eq_ok {words : Array UInt64} {index : Nat} (hindex : index < 2 ^ 64)
    (hroom : index < wordSize * words.size) :
    ∃ after, setBit words (.ofNat index) = .ok after ∧ after.size = words.size ∧
      ∀ k, bitAt? after.toList k = if k = index then some true else bitAt? words.toList k := by
  have hword : index / wordSize < words.size := Nat.div_lt_of_lt_mul hroom
  have hfound : itemAt words (.ofNat index / 64) = .ok words[index / wordSize] := by
    rw [itemAt_eq_ok (by rwa [toNat_ofNat_div hindex])]
    simp only [toNat_ofNat_div hindex]
  have hplace : (UInt64.ofNat index % 64).toNat < 64 := by
    rw [toNat_ofNat_mod hindex]
    exact Nat.mod_lt index (by decide)
  refine ⟨_, by rw [setBit, hfound, ok_bind]; rfl, Array.size_setIfInBounds, ?_⟩
  intro k
  rw [toNat_ofNat_div hindex, Array.toList_setIfInBounds, bitAt?, List.getElem?_set, words.length_toList]
  by_cases hsame : index / wordSize = k / wordSize
  · have hbit : wordBit (words[index / wordSize] ||| (1 <<< (UInt64.ofNat index % 64))) (k % wordSize) =
        (wordBit words[index / wordSize] (k % wordSize) || decide (k = index)) := by
      have hdigits : k % wordSize = index % wordSize ↔ k = index := by
        simp only [wordSize] at hsame ⊢
        omega
      rw [wordBit_or_one_shiftLeft _ _ hplace, toNat_ofNat_mod hindex, decide_eq_decide.2 hdigits]
    rw [if_pos hsame, if_pos hword, Option.map_some, hbit]
    by_cases hk : k = index
    · rw [decide_eq_true hk, Bool.or_true, if_pos hk]
    · rw [decide_eq_false hk, Bool.or_false, if_neg hk, bitAt?, Array.getElem?_toList, ← hsame,
        Array.getElem?_eq_getElem hword, Option.map_some]
  · have hk : k ≠ index := by
      rintro rfl
      exact hsame rfl
    rw [if_neg hsame, if_neg hk, bitAt?]

/-- The words hold the bits, and clear bits everywhere behind them. -/
def Holds (words : Array UInt64) (bits : List Bool) : Prop :=
  ∀ k, (bitAt? words.toList k).getD false = bits[k]?.getD false

theorem holds_replicate (count : Nat) : Holds (Array.replicate count 0) [] := by
  intro k
  rw [bitAt?, Array.toList_replicate, List.getElem?_replicate]
  split
  · exact Nat.zero_testBit _
  · rfl

/-- Marking a symbol puts its bit behind those that are held already. -/
theorem Holds.mark {words : Array UInt64} {bits : List Bool} (hholds : Holds words bits)
    (hindex : bits.length < 2 ^ 64) (hroom : bits.length < wordSize * words.size) (wide : Bool) :
    ∃ after, (if wide then setBit words (.ofNat bits.length) else pure words) = .ok after ∧
      after.size = words.size ∧ Holds after (bits ++ [wide]) := by
  cases wide with
  | false =>
    refine ⟨words, rfl, rfl, ?_⟩
    intro k
    rw [hholds k, List.getElem?_append]
    split
    · rfl
    · rename_i hk
      rw [List.getElem?_eq_none (Nat.le_of_not_lt hk), List.getElem?_singleton]
      split <;> rfl
  | true =>
    obtain ⟨after, hafter, hsize, hbits⟩ := setBit_eq_ok hindex hroom
    refine ⟨after, hafter, hsize, ?_⟩
    intro k
    rw [hbits k, List.getElem?_append]
    by_cases hk : k = bits.length
    · simp [hk]
    · rw [if_neg hk, hholds k]
      split
      · rfl
      · rename_i hbehind
        rw [List.getElem?_eq_none (Nat.le_of_not_lt hbehind), List.getElem?_eq_none (by simp; omega)]

/-- As many words as the bits need hold them packed. -/
theorem Holds.toList_eq_pack {words : Array UInt64} {bits : List Bool} (hholds : Holds words bits)
    (hsize : words.size = (bits.length + 63) / 64) : words.toList = pack bits := by
  apply eq_of_bitAt?_eq
  · rw [words.length_toList, hsize, length_pack]
  · intro k
    rw [hholds k, getD_bitAt?_pack]

end Snappy.Checked
