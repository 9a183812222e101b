import Snappy.Proofs.Bits.Text
import Snappy.Proofs.Checked.Bits

namespace Snappy

/-- The digits of a word in front of others make up the first of the words. -/
theorem wordsOfDigits_append {digits : List Char} (hlength : digits.length = wordSize)
    (others : List Char) :
    wordsOfDigits (digits ++ others) = .ofNat (numeralValue digits.reverse) :: wordsOfDigits others := by
  have hpos : digits ++ others ≠ [] := by
    apply List.append_ne_nil_of_left_ne_nil
    apply List.ne_nil_of_length_pos
    rw [hlength]
    decide
  rw [wordsOfDigits, if_neg hpos, ← hlength, List.take_left, List.drop_left]

namespace BitString

/-- Reading the groups of a text from the last to the first gives back the words. -/
theorem wordsOfDigits_reverse_text (string : BitString) :
    wordsOfDigits string.text.toList.reverse = string.words := by
  obtain ⟨words⟩ := string
  rw [text, String.toList_ofList]
  induction words with
  | nil =>
    change wordsOfDigits [] = []
    rw [wordsOfDigits, if_pos rfl]
  | cons word words ih =>
    have hfits : word.toNat < 2 ^ wordSize := word.toNat_lt
    have hvalue : UInt64.ofNat (numeralValue (binaryNumeral wordSize word.toNat)) = word := by
      rw [numeralValue_binaryNumeral, Nat.mod_eq_of_lt hfits, UInt64.ofNat_toNat]
    rw [List.reverse_cons, List.flatMap_append, List.flatMap_singleton, List.reverse_append,
      wordsOfDigits_append (by rw [List.length_reverse, length_binaryNumeral]), ih, List.reverse_reverse,
      hvalue]

theorem ofText_text (string : BitString) : ofText string.text = string := by
  rw [ofText, wordsOfDigits_reverse_text]

theorem text_inj {string other : BitString} : string.text = other.text ↔ string = other := by
  constructor
  · intro htext
    rw [← ofText_text string, htext, ofText_text]
  · intro hsame
    rw [hsame]

theorem length_text (string : BitString) : string.text.toList.length = string.length := by
  rw [← List.length_reverse, reverse_text, List.length_map, length_bitsFromEnd]

section Position

variable {string : BitString} {position : Nat}

/-- The text has its first character farthest from the end. -/
theorem getElem?_text (hposition : position < string.length) :
    string.text.toList[position]? = (string.fromEnd? (string.length - 1 - position)).map digit := by
  rw [← List.reverse_reverse string.text.toList, reverse_text, List.getElem?_reverse (by simpa using hposition),
    List.length_map, length_bitsFromEnd, List.getElem?_map, getElem?_bitsFromEnd]

theorem exists_fromEnd?_eq (hposition : position < string.length) :
    ∃ word, string.words[string.words.length - 1 - position / 64]? = some word ∧
      string.fromEnd? (string.length - 1 - position) = some (wordBit word (63 - position % 64)) := by
  have hindex : (string.length - 1 - position) / wordSize = string.words.length - 1 - position / 64 := by
    simp only [length, wordSize] at hposition ⊢
    omega
  have hplace : (string.length - 1 - position) % wordSize = 63 - position % 64 := by
    simp only [length, wordSize] at hposition ⊢
    omega
  have hwithin : string.words.length - 1 - position / 64 < string.words.length := by
    simp only [length, wordSize] at hposition
    omega
  refine ⟨_, List.getElem?_eq_getElem hwithin, ?_⟩
  rw [fromEnd?, bitAt?, hindex, hplace, List.getElem?_eq_getElem hwithin, Option.map_some]

theorem bit?_ofNat (hlength : string.length < 2 ^ 64) (hposition : position < string.length) :
    string.bit? (.ofNat position) = string.fromEnd? (string.length - 1 - position) := by
  have hpositive : 1 ≤ string.length := by omega
  rw [bit?, ← UInt64.ofNat_one, ← UInt64.ofNat_sub hpositive, ← UInt64.ofNat_sub (by omega),
    Checked.toNat_ofNat (by omega)]

end Position

/-- The distance to the end of a position outside the string wraps to one that lies outside
it as well. -/
theorem bit?_eq_none {string : BitString} {position : UInt64}
    (hposition : string.length ≤ position.toNat) : string.bit? position = none := by
  have hlt := position.toNat_lt
  rw [bit?, fromEnd?, bitAt?_eq_none_iff, UInt64.toNat_sub, UInt64.toNat_sub,
    Checked.toNat_ofNat (by omega), UInt64.toNat_one]
  change string.length ≤ _
  omega

theorem eq_zero_or_one_of_mem_text {string : BitString} {character : Char}
    (hmem : character ∈ string.text.toList) : character = '0' ∨ character = '1' := by
  rw [← List.mem_reverse, reverse_text, List.mem_map] at hmem
  obtain ⟨bit, -, rfl⟩ := hmem
  cases bit
  · exact .inl rfl
  · exact .inr rfl

/-- The text of a string, its words and the look-up by position tell the same bits. The text
has a digit for each position, which is the digit of the bit that is found there, counted
from the most significant bit of the last word on. The look-up is no fault where the length
of the string fits in a word. Outside the string it finds nothing, be it that the distance
to the end is refused for being negative, or that it wraps. No two strings have the same
text, as its groups of digits, from the last to the first, are the words. -/
theorem text_shows_bits (string : BitString) :
    (string.length = 64 * string.words.length ∧ string.text.length = string.length ∧
      ∀ character ∈ string.text.toList, character = '0' ∨ character = '1') ∧
    (∀ position < string.length, ∃ word,
      string.words[string.words.length - 1 - position / 64]? = some word ∧
        string.text.toList[position]? = some (digit (wordBit word (63 - position % 64))) ∧
        (string.length < 2 ^ 64 →
          string.bit? (.ofNat position) = some (wordBit word (63 - position % 64)) ∧
            Checked.bit string (.ofNat position) = .ok (wordBit word (63 - position % 64)))) ∧
    (∀ position : UInt64, string.length ≤ position.toNat →
      string.bit? position = none ∧ Checked.bit string position = .error .underflow) ∧
    wordsOfDigits string.text.toList.reverse = string.words ∧
    ∀ other : BitString, string = other ↔ string.text = other.text := by
  refine ⟨⟨rfl, ?_, fun _ => eq_zero_or_one_of_mem_text⟩, ?_, ?_, wordsOfDigits_reverse_text string,
    fun _ => text_inj.symm⟩
  · rw [← String.length_toList, length_text]
  · intro position hposition
    obtain ⟨word, hword, hbit⟩ := exists_fromEnd?_eq hposition
    refine ⟨word, hword, ?_, ?_⟩
    · rw [getElem?_text hposition, hbit, Option.map_some]
    · intro hlength
      rw [bit?_ofNat hlength hposition]
      exact ⟨hbit, Checked.bit_eq_ok hlength hposition hbit⟩
  · intro position hposition
    exact ⟨bit?_eq_none hposition, Checked.bit_eq_underflow hposition⟩

/-- The first position is the most significant bit of the last word. From the greatest
position the distance wraps to the length of the string. -/
theorem text_shows_bits_of_two_words :
    (0 < (BitString.mk [0x1, 0x8000000000000000]).length ∧
        (BitString.mk [0x1, 0x8000000000000000]).text.toList[0]? = some '1') ∧
      ((BitString.mk [0x1, 0x8000000000000000]).length < 2 ^ 64 ∧
        (BitString.mk [0x1, 0x8000000000000000]).bit? 0 = some true ∧
        Checked.bit ⟨[0x1, 0x8000000000000000]⟩ 0 = .ok true) ∧
      (BitString.mk [0x1, 0x8000000000000000]).length ≤ (0xffffffffffffffff : UInt64).toNat ∧
      (BitString.mk [0x1, 0x8000000000000000]).bit? 0xffffffffffffffff = none ∧
      Checked.bit ⟨[0x1, 0x8000000000000000]⟩ 0xffffffffffffffff = .error .underflow := by
  obtain ⟨-, hpositions, hbeyond, -⟩ := text_shows_bits ⟨[0x1, 0x8000000000000000]⟩
  have hposition : 0 < (BitString.mk [0x1, 0x8000000000000000]).length := by decide
  have hlength : (BitString.mk [0x1, 0x8000000000000000]).length < 2 ^ 64 := by decide
  have houtside : (BitString.mk [0x1, 0x8000000000000000]).length ≤
      (0xffffffffffffffff : UInt64).toNat := by decide
  obtain ⟨word, hword, hdigit, hbits⟩ := hpositions 0 hposition
  cases hword
  have hset : wordBit 0x8000000000000000 (63 - 0 % 64) = true := by decide
  rw [hset] at hdigit hbits
  exact ⟨⟨hposition, hdigit⟩, ⟨hlength, hbits hlength⟩, houtside, hbeyond _ houtside⟩

end BitString

end Snappy
