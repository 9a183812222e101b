import Mathlib.Algebra.GroupWithZero.Nat
import Snappy.Bytes.LittleEndian
import Snappy.Element.Basic

namespace Snappy

namespace CopyForm

/-- Every offset of the form is below this bound. -/
def offsetBound : CopyForm → Nat
  | .oneByte => 2 ^ 11
  | .twoByte => 2 ^ 16
  | .fourByte => 2 ^ 32

def minLength : CopyForm → Nat
  | .oneByte => 4
  | .twoByte | .fourByte => 1

/-- How many lengths the form can write, counted from the least. -/
def lengthCount : CopyForm → Nat
  | .oneByte => 8
  | .twoByte | .fourByte => 64

end CopyForm

/-- The longest payload of a literal with the given number of length bytes.
Without any, the length shares the tag with the values that announce them. -/
def literalCapacity : Nat → Nat
  | 0 => 60
  | extra + 1 => 256 ^ (extra + 1)

namespace Element

/-- The format can write the element. An empty literal cannot be written. -/
def Valid : Element → Prop
  | .literal extra payload =>
    extra ≤ 4 ∧ 1 ≤ payload.length ∧ payload.length ≤ literalCapacity extra
  | .copy form length offset =>
    form.minLength ≤ length ∧ length < form.minLength + form.lengthCount ∧ offset < form.offsetBound

instance decidableValid : (element : Element) → Decidable element.Valid
  | .literal extra payload => inferInstanceAs
    (Decidable (extra ≤ 4 ∧ 1 ≤ payload.length ∧ payload.length ≤ literalCapacity extra))
  | .copy form length offset => inferInstanceAs
    (Decidable (form.minLength ≤ length ∧ length < form.minLength + form.lengthCount ∧
      offset < form.offsetBound))

/-- The high bits of the element's tag. -/
def upper : Element → Nat
  | .literal 0 payload => payload.length - 1
  | .literal (extra + 1) _ => Tag.extendedLengthBase + extra
  | .copy .oneByte length offset => length - 4 + 8 * (offset / 256)
  | .copy .twoByte length _ | .copy .fourByte length _ => length - 1

/-- The bytes by which the format writes the element. -/
def encode : Element → List UInt8
  | .literal extra payload =>
    Tag.make .literal (upper (.literal extra payload)) ::
      (toLittleEndian extra (payload.length - 1) ++ payload)
  | .copy form length offset =>
    Tag.make form.kind (upper (.copy form length offset)) :: toLittleEndian form.offsetWidth offset

@[simp]
theorem length_encode (element : Element) : element.encode.length = element.width := by
  cases element <;> simp [encode, width] <;> omega

theorem Valid.length_pos {element : Element} (hvalid : element.Valid) : 1 ≤ element.length := by
  cases element with
  | literal extra payload => exact hvalid.2.1
  | copy form length offset =>
    have hlength := hvalid.1
    cases form <;> simp only [CopyForm.minLength] at hlength <;> simp only [Element.length] <;> omega

/-- No form writes a copy beyond the bound. The short form stays far below
it. -/
theorem Valid.length_le {form : CopyForm} {length offset : Nat}
    (hvalid : (copy form length offset).Valid) : length ≤ maxCopyLength := by
  obtain ⟨-, hmax, -⟩ := hvalid
  cases form <;> simp only [CopyForm.minLength, CopyForm.lengthCount] at hmax <;>
    simp only [maxCopyLength] <;> omega

/-- No element is written in a single byte: a literal has a payload, and a copy
has an offset. -/
theorem Valid.two_le_width {element : Element} (hvalid : element.Valid) : 2 ≤ element.width := by
  cases element with
  | literal extra payload =>
    have hpayload := hvalid.2.1
    simp only [width]
    omega
  | copy form length offset => cases form <;> simp [width, CopyForm.offsetWidth]

theorem Valid.upper_lt {element : Element} (hvalid : element.Valid) : element.upper < 64 := by
  cases element with
  | literal extra payload =>
    obtain ⟨hextra, -, hcapacity⟩ := hvalid
    cases extra with
    | zero =>
      simp only [literalCapacity] at hcapacity
      simp only [upper]
      omega
    | succ extra =>
      simp only [upper, Tag.extendedLengthBase]
      omega
  | copy form length offset =>
    obtain ⟨hmin, hmax, hoffset⟩ := hvalid
    cases form <;>
      simp only [CopyForm.minLength, CopyForm.lengthCount, CopyForm.offsetBound] at hmin hmax hoffset <;>
      simp only [upper] <;> omega

/-- Elements one after the other, as the body of a block holds them. -/
def encodeAll (elements : List Element) : List UInt8 := elements.flatMap encode

@[simp]
theorem encodeAll_nil : encodeAll [] = [] := rfl

@[simp]
theorem encodeAll_cons (element : Element) (elements : List Element) :
    encodeAll (element :: elements) = element.encode ++ encodeAll elements := rfl

@[simp]
theorem encodeAll_append (front back : List Element) :
    encodeAll (front ++ back) = encodeAll front ++ encodeAll back := by
  simp [encodeAll]

/-- Every element has a tag, so only no elements at all are written in no
bytes. -/
theorem encodeAll_eq_nil_iff {elements : List Element} : encodeAll elements = [] ↔ elements = [] := by
  cases elements with
  | nil => simp
  | cons element elements => cases element <;> simp [encode]

/-- How many bytes of output the elements stand for together. -/
def totalLength (elements : List Element) : Nat := (elements.map length).sum

@[simp]
theorem totalLength_nil : totalLength [] = 0 := rfl

@[simp]
theorem totalLength_cons (element : Element) (elements : List Element) :
    totalLength (element :: elements) = element.length + totalLength elements := rfl

@[simp]
theorem totalLength_append (front back : List Element) :
    totalLength (front ++ back) = totalLength front + totalLength back := by
  simp [totalLength]

/-- The elements can be written one after the other behind `produced` bytes of
output: each is valid, and each copy stays within the output before it. -/
def Sound (produced : Nat) : List Element → Prop
  | [] => True
  | element :: elements =>
    element.Valid ∧ element.Reaches produced ∧ Sound (produced + element.length) elements

instance decidableSound : (produced : Nat) → (elements : List Element) → Decidable (Sound produced elements)
  | _, [] => inferInstanceAs (Decidable True)
  | produced, element :: elements =>
    haveI := decidableSound (produced + element.length) elements
    inferInstanceAs (Decidable (element.Valid ∧ element.Reaches produced ∧
      Sound (produced + element.length) elements))

theorem Sound.valid_of_mem {produced : Nat} {element : Element} {elements : List Element}
    (hsound : Sound produced elements) (helement : element ∈ elements) : element.Valid := by
  induction elements generalizing produced with
  | nil => cases helement
  | cons first elements ih =>
    obtain ⟨hvalid, -, hrest⟩ := hsound
    rcases List.mem_cons.1 helement with rfl | helement
    · exact hvalid
    · exact ih hrest helement

theorem sound_append {produced : Nat} {front back : List Element} :
    Sound produced (front ++ back) ↔
      Sound produced front ∧ Sound (produced + totalLength front) back := by
  induction front generalizing produced with
  | nil => simp [Sound]
  | cons element front ih =>
    simp only [List.cons_append, Sound, ih, totalLength_cons, and_assoc, Nat.add_assoc]

/-- More output before the elements never makes a copy reach too far. -/
theorem Sound.mono {few many : Nat} {elements : List Element} (hle : few ≤ many)
    (hsound : Sound few elements) : Sound many elements := by
  induction elements generalizing few many with
  | nil => trivial
  | cons element elements ih =>
    obtain ⟨hvalid, hreaches, hrest⟩ := hsound
    refine ⟨hvalid, ?_, ih (by omega) hrest⟩
    cases element with
    | literal extra payload => trivial
    | copy form length offset => exact ⟨hreaches.1, by have := hreaches.2; omega⟩

end Element

end Snappy
