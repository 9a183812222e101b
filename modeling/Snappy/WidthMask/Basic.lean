import Snappy.Bits.BitString
import Snappy.Error
import Snappy.WidthMask.Code

namespace Snappy

/-- One bit for each symbol of a window, set for symbols of three bytes and
clear for symbols of two. The bits lie in words, the first in the least
significant bit of the first word. With them are kept the number of symbols
and the number of input bits that told their widths. -/
structure WidthMask where
  words : List UInt64
  limit : Nat
  consumed : Nat
  deriving DecidableEq, Repr

namespace WidthMask

/-- The number of symbols in a window when none is given. -/
def defaultLimit : Nat := 64

/-- The mask of the first `limit` symbols, whose width codes are read from the
end of the string backwards. Limits here are numbers of any size, and no words are
set aside for the mask; what a limit can do to that is part of the computation in
machine words. -/
def read (string : BitString) (limit : Nat) : Except Error WidthMask :=
  match WidthCode.readAll? limit string.bitsFromEnd with
  | some (codes, rest) => .ok {
      words := pack (codes.map WidthCode.isWide)
      limit := limit
      consumed := string.length - rest.length }
  | none => .error .bitsExhausted

/-- The mask bits of the first 64 symbols. -/
def lowWord (mask : WidthMask) : UInt64 := mask.words.head?.getD 0

/-- The symbol at an index has three bytes. No symbol lies at or beyond the
limit. -/
def isWide (mask : WidthMask) (index : Nat) : Bool :=
  index < mask.limit && (bitAt? mask.words index).getD false

/-- The mask in digits, the last symbol first. -/
def text (mask : WidthMask) : String :=
  String.ofList ((List.range mask.limit).reverse.map fun index => digit (mask.isWide index))

end WidthMask

end Snappy
