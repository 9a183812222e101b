import Snappy.Checked.Build
import Snappy.WidthMask.Basic

namespace Snappy.Checked

/-- The bit at an index into consecutive words. -/
def bitAt (words : Array UInt64) (index : UInt64) : Except Fault Bool := do
  let word ← itemAt words (index / 64)
  return (word >>> (index % 64)) &&& 1 = 1

/-- The bit at a position of a string. The distance of a position outside the string to
its end would be negative. -/
def bit (string : BitString) (position : UInt64) : Except Fault Bool := do
  let last ← sub (.ofNat string.length) 1
  bitAt string.words.toArray (← sub last position)

/-- Sets the bit at an index into consecutive words. -/
def setBit (words : Array UInt64) (index : UInt64) : Except Fault (Array UInt64) := do
  let word ← itemAt words (index / 64)
  return words.setIfInBounds (index / 64).toNat (word ||| (1 <<< (index % 64)))

/-- Computes `count` more mask bits from `index` on, in machine words. The
inner result is absent if the input runs short. -/
def fill (build : Build) (input : Array UInt64) (total : UInt64) :
    (count : Nat) → (index consumed : UInt64) → (mask : Array UInt64) →
      Except Fault (Option (Array UInt64 × UInt64))
  | 0, _, consumed, mask => .ok (some (mask, consumed))
  | count + 1, index, consumed, mask => do
    let remaining ← build.sub total consumed
    let wide ← if 0 < remaining then bitAt input consumed else pure false
    let cost := if wide then 3 else 2
    if remaining < cost then return none
    let mask ← if wide then setBit mask index else pure mask
    fill build input total count (← build.add index 1) (← build.add consumed cost) mask

/-- Computes a mask in machine words. Its own words are set aside first, as many as the
limit needs once it is rounded up to whole words; there is taken to be memory for them. The
outer result tells whether all arithmetic stayed within words, where the build asks for
that, and all look-ups within the input and the mask. -/
def readMask (build : Build) (string : BitString) (limit : UInt64) :
    Except Fault (Except Error WidthMask) := do
  let size ← build.add limit 63
  let mask := Array.replicate (size / 64).toNat 0
  match ← fill build string.words.toArray (UInt64.ofNat string.length) limit.toNat 0 0 mask with
  | none => return .error .bitsExhausted
  | some (mask, consumed) => return .ok ⟨mask.toList, limit.toNat, consumed.toNat⟩

/-- The mask of a window of the default size over the bits of the words. -/
def readWords (build : Build) (words : List UInt64) : Except Fault (Except Error WidthMask) :=
  readMask build ⟨words⟩ (.ofNat WidthMask.defaultLimit)

/-- Looks up whether the symbol at an index has three bytes. Only an index before
the limit is looked up. -/
def isWide (mask : WidthMask) (index : UInt64) : Except Fault Bool :=
  if index.toNat < mask.limit then bitAt mask.words.toArray index else .ok false

/-- Adds the number of set bits of each word to a word of 32 bits. -/
def countSetBits (build : Build) : (words : List UInt64) → (count : UInt32) → Except Fault UInt32
  | [], count => .ok count
  | word :: words, count => do countSetBits build words (← build.add32 count (.ofNat (setBits word)))

/-- How many symbols have three bytes, in a word of 32 bits. -/
def wideCount (build : Build) (mask : WidthMask) : Except Fault UInt32 :=
  countSetBits build mask.words 0

end Snappy.Checked
