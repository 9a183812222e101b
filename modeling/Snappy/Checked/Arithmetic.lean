import Snappy.Bytes.Basic

namespace Snappy.Checked

/-- What can go wrong in a computation with machine words. -/
inductive Fault where
  /-- A sum that does not fit in a word. -/
  | overflow
  /-- A difference that would be negative. -/
  | underflow
  /-- A look-up outside an array. -/
  | outOfBounds
  /-- A copy longer than the format can write. -/
  | copyTooLong
  /-- A state in which the parts of a loop no longer fit together. -/
  | outOfStep
  deriving DecidableEq, Repr

/-- The sum of two words, if it fits in a word. -/
def add (a b : UInt64) : Except Fault UInt64 :=
  if a.toNat + b.toNat < UInt64.size then .ok (a + b) else .error .overflow

/-- The difference of two words, if it is not negative. -/
def sub (a b : UInt64) : Except Fault UInt64 :=
  if b ≤ a then .ok (a - b) else .error .underflow

theorem sub_eq_ok {a b : UInt64} (hle : b ≤ a) : sub a b = .ok (a - b) :=
  if_pos hle

/-- The item at an index, if there is one. -/
def itemAt {α : Type} (items : Array α) (index : UInt64) : Except Fault α :=
  match items[index.toNat]? with
  | some item => .ok item
  | none => .error .outOfBounds

theorem itemAt_eq_ok {α : Type} {items : Array α} {index : UInt64}
    (hbound : index.toNat < items.size) : itemAt items index = .ok items[index.toNat] := by
  simp [itemAt, hbound]

/-- The little-endian number in the given count of bytes from an index on. -/
def field (stream : Bytes) (start : UInt64) : (width : Nat) → Except Fault UInt64
  | 0 => .ok 0
  | width + 1 => do
    let byte ← itemAt stream start
    let rest ← field stream (start + 1) width
    return byte.toUInt64 ||| (rest <<< 8)

end Snappy.Checked
