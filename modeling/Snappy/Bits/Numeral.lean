import Mathlib.Algebra.GroupWithZero.Nat
import Snappy.Bits.BitString

namespace Snappy

theorem binaryValue_lt (bits : List Bool) : binaryValue bits < 2 ^ bits.length := by
  induction bits with
  | nil => simp [binaryValue]
  | cons bit bits ih =>
    simp only [binaryValue, List.length_cons, Nat.pow_succ]
    cases bit <;> simp only [Bool.toNat_true, Bool.toNat_false] <;> omega

/-- The number that binary digits show, most significant first. -/
def numeralValue (digits : List Char) : Nat :=
  digits.foldl (fun number character => 2 * number + if character = '1' then 1 else 0) 0

theorem numeralValue_append_digit (digits : List Char) (bit : Bool) :
    numeralValue (digits ++ [digit bit]) = 2 * numeralValue digits + bit.toNat := by
  cases bit <;> simp [numeralValue, digit]

/-- Reading a numeral gives back the number as far as its digits hold it. -/
theorem numeralValue_binaryNumeral (width number : Nat) :
    numeralValue (binaryNumeral width number) = number % 2 ^ width := by
  induction width generalizing number with
  | zero => simp [binaryNumeral, numeralValue, Nat.mod_one]
  | succ width ih =>
    have hlow : (number % 2 == 1).toNat = number % 2 := by
      rcases Nat.mod_two_eq_zero_or_one number with h | h <;> simp [h]
    rw [binaryNumeral, numeralValue_append_digit, ih, hlow, Nat.pow_succ, Nat.mul_comm (2 ^ width) 2,
      Nat.mod_mul]
    omega

/-- The words whose digits are given from the last to the first, in groups of
one word each. -/
def wordsOfDigits (backwards : List Char) : List UInt64 :=
  if backwards = [] then []
  else
    UInt64.ofNat (numeralValue (backwards.take wordSize).reverse) ::
      wordsOfDigits (backwards.drop wordSize)
termination_by backwards.length
decreasing_by
  rename_i hdigits
  have hpos := List.length_pos_iff.2 hdigits
  simp only [wordSize, List.length_drop]
  omega

/-- The string that a text shows. -/
def BitString.ofText (text : String) : BitString := ⟨wordsOfDigits text.toList.reverse⟩

end Snappy
