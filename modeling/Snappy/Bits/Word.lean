namespace Snappy

/-- How many bits a word holds. -/
def wordSize : Nat := 64

/-- Bit `k` of a word, counted from the least significant. -/
def wordBit (word : UInt64) (k : Nat) : Bool := word.toNat.testBit k

/-- All bits of a word, from the least significant on. -/
def wordBits (word : UInt64) : List Bool := (List.range wordSize).map (wordBit word)

/-- How many bits of a word are set. -/
def setBits (word : UInt64) : Nat := (wordBits word).count true

@[simp]
theorem length_wordBits (word : UInt64) : (wordBits word).length = wordSize := by
  simp [wordBits]

/-- The digit by which a bit is shown. -/
def digit (bit : Bool) : Char := if bit then '1' else '0'

/-- The lowest `width` binary digits of a number, most significant first. -/
def binaryNumeral : (width number : Nat) → List Char
  | 0, _ => []
  | width + 1, number => binaryNumeral width (number / 2) ++ [digit (number % 2 == 1)]

@[simp]
theorem length_binaryNumeral (width number : Nat) : (binaryNumeral width number).length = width := by
  induction width generalizing number with
  | zero => rfl
  | succ width ih => simp [binaryNumeral, ih]

/-- The number whose binary digits are the given bits, least significant
first. -/
def binaryValue : List Bool → Nat
  | [] => 0
  | bit :: bits => bit.toNat + 2 * binaryValue bits

theorem testBit_binaryValue (bits : List Bool) (k : Nat) :
    (binaryValue bits).testBit k = bits[k]?.getD false := by
  induction bits generalizing k with
  | nil => simp [binaryValue]
  | cons bit bits ih =>
    cases k with
    | zero => cases bit <;> simp [binaryValue, Nat.testBit_zero]
    | succ k =>
      have hhalf : (bit.toNat + 2 * binaryValue bits) / 2 = binaryValue bits := by
        cases bit <;> simp only [Bool.toNat_true, Bool.toNat_false] <;> omega
      simp [binaryValue, Nat.testBit_succ, hhalf, ih]

/-- The bits in words, from the least significant bit of the first word on.
Bits of the last word that are left over are clear. -/
def pack (bits : List Bool) : List UInt64 :=
  if bits = [] then []
  else UInt64.ofNat (binaryValue (bits.take wordSize)) :: pack (bits.drop wordSize)
termination_by bits.length
decreasing_by
  rename_i hbits
  have hpos := List.length_pos_iff.2 hbits
  simp only [wordSize, List.length_drop]
  omega

/-- Bit `k` of consecutive words, counted from the least significant bit of the
first, if there are so many words. -/
def bitAt? (words : List UInt64) (k : Nat) : Option Bool :=
  words[k / wordSize]?.map fun word => wordBit word (k % wordSize)

theorem bitAt?_cons_of_lt {k : Nat} (hk : k < wordSize) (word : UInt64) (words : List UInt64) :
    bitAt? (word :: words) k = some (wordBit word k) := by
  rw [bitAt?, Nat.div_eq_of_lt hk, Nat.mod_eq_of_lt hk, List.getElem?_cons_zero, Option.map_some]

theorem bitAt?_cons_of_le {k : Nat} (hk : wordSize ≤ k) (word : UInt64) (words : List UInt64) :
    bitAt? (word :: words) k = bitAt? words (k - wordSize) := by
  have hquotient : k / wordSize = (k - wordSize) / wordSize + 1 := by
    simp only [wordSize] at hk ⊢
    omega
  have hremainder : k % wordSize = (k - wordSize) % wordSize := by
    simp only [wordSize] at hk ⊢
    omega
  rw [bitAt?, hquotient, hremainder, List.getElem?_cons_succ, bitAt?]

theorem bitAt?_eq_none_iff {words : List UInt64} {k : Nat} :
    bitAt? words k = none ↔ wordSize * words.length ≤ k := by
  simp only [bitAt?, Option.map_eq_none_iff, List.getElem?_eq_none_iff, wordSize]
  omega

end Snappy
