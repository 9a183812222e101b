import Snappy.Tag

namespace Snappy

/-- How a copy's offset is written: in eleven bits, three of them in the tag,
or in two or four bytes after the tag. -/
inductive CopyForm where
  | oneByte
  | twoByte
  | fourByte
  deriving DecidableEq, Repr

namespace CopyForm

/-- The kind of tag that announces the form. -/
def kind : CopyForm → Tag.Kind
  | .oneByte => .oneByteCopy
  | .twoByte => .twoByteCopy
  | .fourByte => .fourByteCopy

/-- Every kind of tag but a literal's is that of some form. -/
theorem exists_kind_eq {kind : Tag.Kind} (hkind : kind ≠ .literal) :
    ∃ form : CopyForm, kind = form.kind := by
  cases kind with
  | literal => exact absurd rfl hkind
  | oneByteCopy => exact ⟨.oneByte, rfl⟩
  | twoByteCopy => exact ⟨.twoByte, rfl⟩
  | fourByteCopy => exact ⟨.fourByte, rfl⟩

/-- Bytes after the tag. -/
def offsetWidth : CopyForm → Nat
  | .oneByte => 1
  | .twoByte => 2
  | .fourByte => 4

end CopyForm

/-- The longest copy that any form can write. -/
def maxCopyLength : Nat := 64

/-- One element of a block body, as the format spells it: a literal with its
payload and the number of bytes that hold its length, or a copy with its
form. -/
inductive Element where
  | literal (extra : Nat) (payload : List UInt8)
  | copy (form : CopyForm) (length offset : Nat)
  deriving DecidableEq, Repr

namespace Element

/-- How many bytes of output the element stands for. -/
def length : Element → Nat
  | .literal _ payload => payload.length
  | .copy _ length _ => length

/-- How many bytes the element takes in a block. -/
def width : Element → Nat
  | .literal extra payload => 1 + extra + payload.length
  | .copy form _ _ => 1 + form.offsetWidth

/-- After `produced` bytes of output, a copy may look at each of them and at
nothing before them. A literal looks at none. -/
def Reaches (produced : Nat) : Element → Prop
  | .literal _ _ => True
  | .copy _ _ offset => 1 ≤ offset ∧ offset ≤ produced

instance decidableReaches (produced : Nat) : (element : Element) → Decidable (element.Reaches produced)
  | .literal _ _ => inferInstanceAs (Decidable True)
  | .copy _ _ offset => inferInstanceAs (Decidable (1 ≤ offset ∧ offset ≤ produced))

end Element

end Snappy
