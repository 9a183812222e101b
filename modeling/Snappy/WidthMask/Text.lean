import Snappy.WidthMask.Basic

namespace Snappy.WidthMask

/-- Shows `limit` symbols of a mask from a text of digits that is given from
its last character backwards. A one shows a wide symbol and uses three
characters, any other character shows a narrow one and uses two; the symbols
shown later stand in front. Returns what is shown and how many characters were
used, unless there are too few. -/
def showBackwards : (limit : Nat) → (backwards : List Char) → Option (List Char × Nat)
  | 0, _ => some ([], 0)
  | _ + 1, [] => none
  | limit + 1, character :: backwards =>
    let wide := character == '1'
    let cost := if wide then 3 else 2
    if cost ≤ backwards.length + 1 then
      (showBackwards limit ((character :: backwards).drop cost)).map fun (shown, used) =>
        (shown ++ [digit wide], cost + used)
    else none

/-- The text of a mask and the number of characters that told it, read off the
text of a string of bits. -/
def ofText? (text : String) (limit : Nat) : Option (String × Nat) :=
  (showBackwards limit text.toList.reverse).map fun (shown, used) => (String.ofList shown, used)

end Snappy.WidthMask
