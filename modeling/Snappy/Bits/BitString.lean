import Snappy.Bits.Word

namespace Snappy

/-- The bits of consecutive words as one string. Its first position is the most
significant bit of the last word, and its last position is the least
significant bit of the first word. -/
structure BitString where
  words : List UInt64
  deriving DecidableEq, Repr

namespace BitString

def length (string : BitString) : Nat := wordSize * string.words.length

def isEmpty (string : BitString) : Bool := string.words.isEmpty

/-- The bit `k` places before the last position. -/
def fromEnd? (string : BitString) (k : Nat) : Option Bool := bitAt? string.words k

/-- The bit at a position. The distance to the end is computed in machine
words and wraps for a position outside the string; it then lies beyond every
word, so that no bit is found. -/
def bit? (string : BitString) (position : UInt64) : Option Bool :=
  string.fromEnd? (UInt64.ofNat string.length - 1 - position).toNat

/-- All bits, from the last position backwards. -/
def bitsFromEnd (string : BitString) : List Bool := string.words.flatMap wordBits

/-- The string in digits, first position first. -/
def text (string : BitString) : String :=
  String.ofList (string.words.reverse.flatMap fun word => binaryNumeral wordSize word.toNat)

@[simp]
theorem length_bitsFromEnd (string : BitString) : string.bitsFromEnd.length = string.length := by
  obtain ⟨words⟩ := string
  simp only [bitsFromEnd, length]
  induction words with
  | nil => rfl
  | cons word words ih =>
    simp only [List.flatMap_cons, List.length_append, length_wordBits, ih, List.length_cons,
      Nat.mul_add, Nat.mul_one]
    omega

/-- The list of bits and the look-up from the end agree everywhere, also in
finding nothing. -/
theorem getElem?_bitsFromEnd (string : BitString) (k : Nat) :
    string.bitsFromEnd[k]? = string.fromEnd? k := by
  obtain ⟨words⟩ := string
  simp only [bitsFromEnd, fromEnd?]
  induction words generalizing k with
  | nil => simp [bitAt?]
  | cons word words ih =>
    rw [List.flatMap_cons]
    by_cases hk : k < wordSize
    · rw [List.getElem?_append_left (by simpa using hk), bitAt?_cons_of_lt hk]
      simp [wordBits, hk]
    · rw [List.getElem?_append_right (by simpa using hk), length_wordBits, ih,
        bitAt?_cons_of_le (Nat.le_of_not_lt hk)]

end BitString

end Snappy
