import Snappy.WidthMask.Basic

namespace Snappy

/-- The bits are codes of narrow symbols, if any, and behind these the code of a wide
one. -/
def WidthCode.meetsWide : List Bool → Bool
  | false :: _ :: bits => meetsWide bits
  | true :: _ :: _ :: _ => true
  | _ => false

namespace WidthMask

/-- The mask that tells the widths of symbols from their codes, one behind the
other. -/
def ofCodes (codes : List WidthCode) : WidthMask where
  words := pack (codes.map WidthCode.isWide)
  limit := codes.length
  consumed := (WidthCode.encodeAll codes).length

/-- How many of the symbols from one index up to another have three bytes. -/
def wideWithin (mask : WidthMask) (start stop : Nat) : Nat :=
  (List.range' start (stop - start)).countP mask.isWide

/-- How far before the end of a string the code of a symbol begins: behind two bits
for each symbol before it, and one more for each of these that has three bytes. -/
def place (mask : WidthMask) (index : Nat) : Nat := 2 * index + mask.wideWithin 0 index

end WidthMask

end Snappy
