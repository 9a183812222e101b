import Snappy.Bits.BitString

namespace Snappy

/-- Read from its last digit backwards, a numeral shows the bits of its number. -/
theorem reverse_binaryNumeral (width number : Nat) :
    (binaryNumeral width number).reverse =
      (List.range width).map fun k => digit (number.testBit k) := by
  induction width generalizing number with
  | zero => rfl
  | succ width ih =>
    have hlow : (number % 2 == 1) = number.testBit 0 := by rw [Nat.testBit_zero]; rfl
    rw [binaryNumeral, List.reverse_append, ih, List.range_succ_eq_map, List.map_cons, List.map_map,
      hlow]
    simp only [Function.comp_def, Nat.testBit_succ]
    rfl

/-- Read from its last character backwards, the text of a string shows its bits
from the last position backwards. -/
theorem BitString.reverse_text (string : BitString) :
    string.text.toList.reverse = string.bitsFromEnd.map digit := by
  obtain ⟨words⟩ := string
  rw [text, String.toList_ofList, bitsFromEnd]
  induction words with
  | nil => rfl
  | cons word words ih =>
    rw [List.reverse_cons, List.flatMap_append, List.flatMap_singleton, List.reverse_append, ih,
      reverse_binaryNumeral, List.flatMap_cons, List.map_append, wordBits, List.map_map]
    rfl

end Snappy
