import Snappy.Checked.Arithmetic

namespace Snappy.Checked

/-- How a program is built. A sum or a difference that does not fit in a word is a
fault in a checking build. In a wrapping build it comes round, and the program goes on
with what is left of it in the word. -/
inductive Build where
  | checking
  | wrapping
  deriving DecidableEq, Repr

namespace Build

/-- The sum of two words. -/
def add : Build → (a b : UInt64) → Except Fault UInt64
  | .checking, a, b => Checked.add a b
  | .wrapping, a, b => .ok (a + b)

/-- The difference of two words. -/
def sub : Build → (a b : UInt64) → Except Fault UInt64
  | .checking, a, b => Checked.sub a b
  | .wrapping, a, b => .ok (a - b)

/-- A number in a word of 32 bits. -/
def word32 : Build → (number : Nat) → Except Fault UInt32
  | .checking, number => if number < UInt32.size then .ok (.ofNat number) else .error .overflow
  | .wrapping, number => .ok (.ofNat number)

/-- The sum of two words of 32 bits. -/
def add32 (build : Build) (a b : UInt32) : Except Fault UInt32 := build.word32 (a.toNat + b.toNat)

end Build

end Snappy.Checked
