import Snappy.Bytes.Basic
import Snappy.Bytes.LittleEndian
import Snappy.Element.Basic

namespace Snappy.Element

/-- The length that a literal's tag announces, with the length bytes behind
the tag if there are any. -/
def announcedLength (tag : Tag) (fields : List UInt8) : Nat :=
  if fields = [] then tag.upper + 1 else littleEndian fields + 1

/-- The copy that a tag announces, with the offset bytes behind it. The short
form keeps the offset's three highest bits beside its length. -/
def announcedCopy (form : CopyForm) (tag : Tag) (fields : List UInt8) : Element :=
  match form with
  | .oneByte => .copy .oneByte (tag.upper % 8 + 4) (littleEndian fields + 256 * (tag.upper / 8))
  | .twoByte | .fourByte => .copy form (tag.upper + 1) (littleEndian fields)

/-- Reads the element with which the bytes begin, and returns what follows it.
There is none if the bytes end within its tag, its length or offset, or its
payload. -/
def read? : List UInt8 → Option (Element × List UInt8)
  | [] => none
  | byte :: rest => do
    let tag : Tag := byte
    let (fields, rest) ← splitAt? tag.fieldWidth rest
    match tag.kind with
    | .literal =>
      let (payload, rest) ← splitAt? (announcedLength tag fields) rest
      return (.literal fields.length payload, rest)
    | .oneByteCopy => return (announcedCopy .oneByte tag fields, rest)
    | .twoByteCopy => return (announcedCopy .twoByte tag fields, rest)
    | .fourByteCopy => return (announcedCopy .fourByte tag fields, rest)

theorem read?_cons (byte : UInt8) (rest : List UInt8) :
    read? (byte :: rest) =
      (splitAt? (Tag.fieldWidth byte) rest).bind fun (fields, rest) =>
        match Tag.kind byte with
        | .literal => (splitAt? (announcedLength byte fields) rest).bind fun (payload, rest) =>
            some (.literal fields.length payload, rest)
        | .oneByteCopy => some (announcedCopy .oneByte byte fields, rest)
        | .twoByteCopy => some (announcedCopy .twoByte byte fields, rest)
        | .fourByteCopy => some (announcedCopy .fourByte byte fields, rest) := by
  rfl

/-- Reading always makes progress, so a walk over the elements ends. -/
theorem length_lt_of_read? {bytes rest : List UInt8} {element : Element}
    (hread : read? bytes = some (element, rest)) : rest.length < bytes.length := by
  cases bytes with
  | nil => cases hread
  | cons byte bytes =>
    rw [read?_cons] at hread
    obtain ⟨⟨fields, tail⟩, hsplit, hbody⟩ := Option.bind_eq_some_iff.1 hread
    have htail := length_le_of_splitAt? hsplit
    rw [List.length_cons]
    cases hkind : Tag.kind byte with
    | literal =>
      simp only [hkind] at hbody
      obtain ⟨⟨payload, remainder⟩, hpayload, hresult⟩ := Option.bind_eq_some_iff.1 hbody
      have hremainder := length_le_of_splitAt? hpayload
      simp only [Option.some.injEq, Prod.mk.injEq] at hresult
      obtain ⟨-, rfl⟩ := hresult
      omega
    | oneByteCopy | twoByteCopy | fourByteCopy =>
      simp only [hkind] at hbody
      cases hbody
      omega

end Snappy.Element
