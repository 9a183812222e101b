import Snappy.Element.Basic

namespace Snappy

/-- What an element contributes to the output, in terms of positions: bytes of
the stream from `start` on, or earlier output from `offset` bytes back on. -/
inductive Symbol where
  | literal (length start : Nat)
  | copy (length offset : Nat)
  deriving DecidableEq, Repr

namespace Symbol

/-- How many bytes of output the symbol stands for. -/
def length : Symbol → Nat
  | .literal length _ => length
  | .copy length _ => length

def isLiteral : Symbol → Bool
  | .literal _ _ => true
  | .copy _ _ => false

def isCopy (symbol : Symbol) : Bool := !symbol.isLiteral

/-- Behind `produced` items of output, a copy looks at nothing before them. A
literal looks at none of them. -/
def Reaches (produced : Nat) : Symbol → Prop
  | .literal _ _ => True
  | .copy _ offset => 1 ≤ offset ∧ offset ≤ produced

instance decidableReaches (produced : Nat) : (symbol : Symbol) → Decidable (symbol.Reaches produced)
  | .literal _ _ => inferInstanceAs (Decidable True)
  | .copy _ offset => inferInstanceAs (Decidable (1 ≤ offset ∧ offset ≤ produced))

/-- A literal's payload lies within a stream of the given size. A copy takes
nothing from the stream. -/
def FitsIn (size : Nat) : Symbol → Prop
  | .literal length start => start + length ≤ size
  | .copy _ _ => True

instance decidableFitsIn (size : Nat) : (symbol : Symbol) → Decidable (symbol.FitsIn size)
  | .literal length start => inferInstanceAs (Decidable (start + length ≤ size))
  | .copy _ _ => inferInstanceAs (Decidable True)

/-- The position in the stream is one of those that a literal's payload takes.
A copy takes none. -/
def Spans (position : Nat) : Symbol → Prop
  | .literal length start => start ≤ position ∧ position < start + length
  | .copy _ _ => False

end Symbol

/-- The symbol of an element whose tag is at `cursor`. A literal's payload
begins behind its tag and its length bytes; a copy does not depend on its own
position. -/
def Element.symbolAt (cursor : Nat) : Element → Symbol
  | .literal extra payload => .literal payload.length (cursor + 1 + extra)
  | .copy _ length offset => .copy length offset

@[simp]
theorem Element.length_symbolAt (cursor : Nat) (element : Element) :
    (element.symbolAt cursor).length = element.length := by
  cases element <;> rfl

/-- The symbol tells what the element is whose tag is at `cursor`: the length of a
literal's payload, and that it begins behind the tag and the length bytes; the length
and the offset of a copy. -/
def Symbol.Tells (cursor : Nat) : Symbol → Element → Prop
  | .literal length start, .literal extra payload =>
    length = payload.length ∧ start = cursor + 1 + extra
  | .copy length offset, .copy _ length' offset' => length = length' ∧ offset = offset'
  | _, _ => False

theorem Symbol.tells_iff {cursor : Nat} {symbol : Symbol} {element : Element} :
    symbol.Tells cursor element ↔ symbol = element.symbolAt cursor := by
  cases symbol <;> cases element <;> simp [Tells, Element.symbolAt]

theorem Element.Reaches.symbolAt {produced : Nat} {element : Element}
    (hreaches : element.Reaches produced) (cursor : Nat) :
    (element.symbolAt cursor).Reaches produced := by
  cases element with
  | literal extra payload => trivial
  | copy form length offset => exact hreaches

end Snappy
