import Snappy.Bytes.Basic
import Snappy.Error
import Snappy.Symbol.Basic

namespace Snappy

variable {α : Type}

/-- Appends `length` items one at a time, each equal to the item `offset`
places before it. Nothing is appended where there is no such item. -/
def appendCopy (offset : Nat) : (length : Nat) → (output : Array α) → Array α
  | 0, output => output
  | length + 1, output =>
    if h : 1 ≤ offset ∧ offset ≤ output.size then
      appendCopy offset length (output.push output[output.size - offset])
    else output

/-- The `length` items that continue the last `offset` items of the output
with their own period. -/
def periodicWindow (output : Array α) (length offset : Nat)
    (h : 1 ≤ offset ∧ offset ≤ output.size) : Array α :=
  Array.ofFn fun i : Fin length =>
    have hphase : i.val % offset < offset := Nat.mod_lt _ h.1
    output[output.size - offset + i.val % offset]

namespace Symbol

/-- The items that the symbol adds to the output produced before it. Nothing
is looked at but positions, so a symbol means the same over items of any
type. -/
def contribution (stream output : Array α) : Symbol → Except Error (Array α)
  | .literal length start =>
    match slice? stream start length with
    | some payload => .ok payload
    | none => .error .literalBeyondStream
  | .copy length offset =>
    if h : 1 ≤ offset ∧ offset ≤ output.size then .ok (periodicWindow output length offset h)
    else .error .offsetOutOfRange

/-- Adds the symbol's items to the buffer that holds the output. -/
def expand (stream : Array α) : Symbol → EStateM Error (Array α) Unit
  | .literal length start =>
    match slice? stream start length with
    | some payload => modify (· ++ payload)
    | none => throw .literalBeyondStream
  | .copy length offset => do
    let produced := (← get).size
    if 1 ≤ offset ∧ offset ≤ produced then modify (appendCopy offset length)
    else throw .offsetOutOfRange

end Symbol

end Snappy
