namespace Snappy

/-- The first byte of an element. Its low two bits say what the element is;
its high six bits hold a length, or part of one and part of an offset. -/
abbrev Tag := UInt8

namespace Tag

/-- What the low two bits of a tag announce: a literal, or a copy whose offset
takes one, two or four bytes after the tag. -/
inductive Kind where
  | literal
  | oneByteCopy
  | twoByteCopy
  | fourByteCopy
  deriving DecidableEq, Repr

/-- The low two bits by which a kind is written. -/
def Kind.code : Kind → Nat
  | .literal => 0
  | .oneByteCopy => 1
  | .twoByteCopy => 2
  | .fourByteCopy => 3

def Kind.ofCode : Nat → Kind
  | 0 => .literal
  | 1 => .oneByteCopy
  | 2 => .twoByteCopy
  | _ => .fourByteCopy

theorem Kind.ofCode_code (kind : Kind) : Kind.ofCode kind.code = kind := by
  cases kind <;> rfl

theorem Kind.code_ofCode {code : Nat} (hcode : code < 4) : (Kind.ofCode code).code = code := by
  match code, hcode with
  | 0, _ | 1, _ | 2, _ | 3, _ => rfl

theorem Kind.code_lt (kind : Kind) : kind.code < 4 := by
  cases kind <;> decide

/-- What the low two bits say. -/
def kind (tag : Tag) : Kind := .ofCode (tag.toNat % 4)

/-- The high six bits. -/
def upper (tag : Tag) : Nat := tag.toNat / 4

theorem code_kind (tag : Tag) : tag.kind.code = tag.toNat % 4 :=
  Kind.code_ofCode (Nat.mod_lt _ (by decide))

theorem upper_lt (tag : Tag) : tag.upper < 64 := by
  have hbyte := tag.toNat_lt
  simp only [upper]
  omega

/-- The tag of a kind with the given high bits, of which only six are kept. -/
def make (kind : Kind) (upper : Nat) : Tag := UInt8.ofNat (kind.code + 4 * (upper % 64))

theorem toNat_make (kind : Kind) (upper : Nat) :
    (make kind upper).toNat = kind.code + 4 * (upper % 64) := by
  have hcode := kind.code_lt
  simp only [make, UInt8.toNat_ofNat']
  omega

@[simp]
theorem kind_make (kind : Kind) (upper : Nat) : (make kind upper).kind = kind := by
  have hcode := kind.code_lt
  have hlow : (kind.code + 4 * (upper % 64)) % 4 = kind.code := by omega
  simp only [Tag.kind, toNat_make, hlow, Kind.ofCode_code]

theorem upper_make (kind : Kind) {upper : Nat} (hupper : upper < 64) :
    (make kind upper).upper = upper := by
  have hcode := kind.code_lt
  simp only [Tag.upper, toNat_make]
  omega

/-- A tag is nothing but its kind and its high bits. -/
theorem make_kind_upper (tag : Tag) : make tag.kind tag.upper = tag := by
  have hbyte := tag.toNat_lt
  apply UInt8.toNat_inj.1
  simp only [toNat_make, code_kind, Tag.upper]
  omega

/-- The high bits of a literal's tag hold its length less one below this
value; from it on they say how many bytes after the tag hold it. -/
def extendedLengthBase : Nat := 60

/-- How many bytes of length or offset follow the tag. -/
def fieldWidth (tag : Tag) : Nat :=
  match tag.kind with
  | .literal => tag.upper + 1 - extendedLengthBase
  | .oneByteCopy => 1
  | .twoByteCopy => 2
  | .fourByteCopy => 4

/-- How many bytes the tag takes with its length or offset bytes, a literal's
payload not counted. -/
def width (tag : Tag) : Nat := 1 + tag.fieldWidth

theorem fieldWidth_le (tag : Tag) : tag.fieldWidth ≤ 4 := by
  have hupper := tag.upper_lt
  unfold fieldWidth extendedLengthBase
  split <;> omega

/-- The families into which readers sort tags: copies with two and with four
offset bytes are one family, and literals are two. -/
inductive Family where
  | shortLiteral
  | literal
  | oneByteCopy
  | wideCopy
  deriving DecidableEq, Repr

/-- Tags of literals below this byte are short. -/
def shortLiteralLimit : Nat := 16

def family (tag : Tag) : Family :=
  match tag.kind with
  | .literal => if tag.toNat < shortLiteralLimit then .shortLiteral else .literal
  | .oneByteCopy => .oneByteCopy
  | .twoByteCopy | .fourByteCopy => .wideCopy

def Family.isLiteral : Family → Bool
  | .shortLiteral | .literal => true
  | .oneByteCopy | .wideCopy => false

/-- The kind alone decides whether a tag is a literal's: how the literal's
length is written makes no difference. -/
theorem isLiteral_family (tag : Tag) : tag.family.isLiteral = true ↔ tag.kind = .literal := by
  unfold family
  split
  · split <;> simp [Family.isLiteral, *]
  all_goals simp [Family.isLiteral, *]

/-- A short literal's tag is followed by its payload at once. The bound on the
tag leaves no room for high bits that announce length bytes. -/
theorem fieldWidth_of_shortLiteral {tag : Tag} (hfamily : tag.family = .shortLiteral) :
    tag.fieldWidth = 0 := by
  unfold family at hfamily
  split at hfamily
  · rename_i hkind
    split at hfamily
    · rename_i hshort
      simp only [shortLiteralLimit] at hshort
      simp only [fieldWidth, hkind, extendedLengthBase, upper]
      omega
    · cases hfamily
  all_goals cases hfamily

end Tag

end Snappy
