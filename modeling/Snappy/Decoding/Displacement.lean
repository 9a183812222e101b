import Snappy.Decoding.Basic

namespace Snappy

/-- The same symbol, found once behind `here` bytes and once behind `there` bytes.
A literal's payload lies as much further on; a copy looks back just as far. -/
def Symbol.Displaced (here there : Nat) : Symbol → Symbol → Prop
  | .literal length start, .literal length' start' =>
    length' = length ∧ start' + here = start + there
  | .copy length offset, .copy length' offset' => length' = length ∧ offset' = offset
  | _, _ => False

/-- The records of the same symbol, found once behind `here` bytes and once behind
`there` bytes. Its place in the output is the same. -/
structure Record.Displaced (here there : Nat) (record other : Record) : Prop where
  cursor_eq : other.cursor + here = record.cursor + there
  width_eq : other.width = record.width
  outputStart_eq : other.outputStart = record.outputStart
  symbol_displaced : record.symbol.Displaced here there other.symbol

end Snappy
