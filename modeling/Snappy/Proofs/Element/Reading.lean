import Snappy.Element.Encoding
import Snappy.Element.Reader
import Snappy.Proofs.Bytes.LittleEndian

namespace Snappy.Element

private theorem encode_announcedLiteral {byte : UInt8} {fields payload : List UInt8}
    (hkind : Tag.kind byte = .literal) (hfields : fields.length = Tag.fieldWidth byte)
    (hpayload : payload.length = announcedLength byte fields) :
    (literal fields.length payload).Valid ∧
      (literal fields.length payload).encode = byte :: (fields ++ payload) := by
  have hupper := Tag.upper_lt byte
  have htag := Tag.make_kind_upper byte
  simp only [Tag.fieldWidth, hkind, Tag.extendedLengthBase] at hfields
  rw [hkind] at htag
  cases fields with
  | nil =>
    simp only [announcedLength, if_true] at hpayload
    simp only [List.length_nil] at hfields
    refine ⟨⟨by simp, by omega, by simp only [List.length_nil, literalCapacity]; omega⟩, ?_⟩
    simp only [encode, List.length_nil, upper, toLittleEndian, List.nil_append, hpayload,
      Nat.add_sub_cancel, htag]
  | cons field fields =>
    have hlength : payload.length = littleEndian (field :: fields) + 1 := by
      simpa [announcedLength] using hpayload
    have hbound := littleEndian_lt (field :: fields)
    have hextended : Tag.extendedLengthBase + fields.length = Tag.upper byte := by
      simp only [List.length_cons] at hfields
      simp only [Tag.extendedLengthBase]
      omega
    refine ⟨⟨by omega, by omega, ?_⟩, ?_⟩
    · simp only [List.length_cons] at hbound ⊢
      simp only [literalCapacity]
      omega
    · have hdigits := toLittleEndian_littleEndian (field :: fields)
      simp only [List.length_cons] at hdigits
      simp only [encode, List.length_cons, upper, hlength, Nat.add_sub_cancel, hextended, htag, hdigits]

private theorem fieldWidth_eq_offsetWidth {form : CopyForm} {tag : Tag}
    (hkind : tag.kind = form.kind) : tag.fieldWidth = form.offsetWidth := by
  rw [Tag.fieldWidth, hkind]
  cases form <;> rfl

private theorem encode_announcedCopy (form : CopyForm) {byte : UInt8} {fields : List UInt8}
    (hkind : Tag.kind byte = form.kind) (hfields : fields.length = Tag.fieldWidth byte) :
    (announcedCopy form byte fields).Valid ∧ (announcedCopy form byte fields).encode = byte :: fields := by
  rw [fieldWidth_eq_offsetWidth hkind] at hfields
  have hupper := Tag.upper_lt byte
  have htag := Tag.make_kind_upper byte
  have hbound := littleEndian_lt fields
  have hdigits := toLittleEndian_littleEndian fields
  rw [hkind] at htag
  rw [hfields] at hbound hdigits
  cases form with
  | oneByte =>
    simp only [CopyForm.offsetWidth, Nat.pow_one] at hbound
    obtain ⟨field, rfl⟩ := List.length_eq_one_iff.1 hfields
    have hfield := field.toNat_lt
    simp only [littleEndian, Nat.mul_zero, Nat.add_zero] at hbound
    refine ⟨⟨?_, ?_, ?_⟩, ?_⟩
    · simp only [CopyForm.minLength]
      omega
    · simp only [CopyForm.minLength, CopyForm.lengthCount]
      omega
    · simp only [CopyForm.offsetBound, littleEndian]
      omega
    · have hhigh : Tag.upper byte % 8 + 4 - 4 + 8 * ((field.toNat + 256 * (Tag.upper byte / 8)) / 256) =
          Tag.upper byte := by omega
      have hlow : (field.toNat + 256 * (Tag.upper byte / 8)) % 256 = field.toNat := by omega
      simp only [announcedCopy, encode, upper, littleEndian, Nat.mul_zero, Nat.add_zero, hhigh, htag,
        CopyForm.offsetWidth, toLittleEndian, hlow, UInt8.ofNat_toNat]
  | twoByte | fourByte =>
    simp only [CopyForm.offsetWidth] at hbound
    refine ⟨⟨?_, ?_, ?_⟩, ?_⟩
    · simp only [CopyForm.minLength]
      omega
    · simp only [CopyForm.minLength, CopyForm.lengthCount]
      omega
    · simp only [CopyForm.offsetBound]
      omega
    · simp only [announcedCopy, encode, upper, Nat.add_sub_cancel, htag, hdigits]

/-- What is read is valid, and writing it gives back the bytes that were read.
The format therefore has no two spellings for one element. -/
theorem encode_of_read? {bytes rest : List UInt8} {element : Element}
    (hread : read? bytes = some (element, rest)) : element.Valid ∧ bytes = element.encode ++ rest := by
  cases bytes with
  | nil => cases hread
  | cons byte bytes =>
    rw [read?_cons] at hread
    obtain ⟨⟨fields, tail⟩, hsplit, hbody⟩ := Option.bind_eq_some_iff.1 hread
    obtain ⟨hfields, rfl⟩ := splitAt?_eq_some_iff.1 hsplit
    clear hread
    cases hkind : Tag.kind byte with
    | literal =>
      simp only [hkind] at hbody
      obtain ⟨⟨payload, remainder⟩, hpayload, hresult⟩ := Option.bind_eq_some_iff.1 hbody
      obtain ⟨hlength, rfl⟩ := splitAt?_eq_some_iff.1 hpayload
      cases hresult
      obtain ⟨hvalid, hencode⟩ := encode_announcedLiteral hkind hfields hlength
      exact ⟨hvalid, by simp [hencode]⟩
    | oneByteCopy =>
      simp only [hkind] at hbody
      cases hbody
      obtain ⟨hvalid, hencode⟩ := encode_announcedCopy .oneByte hkind hfields
      exact ⟨hvalid, by simp [hencode]⟩
    | twoByteCopy =>
      simp only [hkind] at hbody
      cases hbody
      obtain ⟨hvalid, hencode⟩ := encode_announcedCopy .twoByte hkind hfields
      exact ⟨hvalid, by simp [hencode]⟩
    | fourByteCopy =>
      simp only [hkind] at hbody
      cases hbody
      obtain ⟨hvalid, hencode⟩ := encode_announcedCopy .fourByte hkind hfields
      exact ⟨hvalid, by simp [hencode]⟩

private theorem read?_encode_literal {extra : Nat} {payload : List UInt8} (rest : List UInt8)
    (hvalid : (literal extra payload).Valid) :
    read? ((literal extra payload).encode ++ rest) = some (literal extra payload, rest) := by
  have hupper := hvalid.upper_lt
  obtain ⟨hextra, hpos, hcapacity⟩ := hvalid
  have hwidth : Tag.fieldWidth (Tag.make .literal (upper (.literal extra payload))) = extra := by
    simp only [Tag.fieldWidth, Tag.kind_make, Tag.upper_make _ hupper, Tag.extendedLengthBase]
    cases extra with
    | zero =>
      simp only [literalCapacity] at hcapacity
      simp only [upper]
      omega
    | succ extra =>
      simp only [upper, Tag.extendedLengthBase]
      omega
  have hlength : announcedLength (Tag.make .literal (upper (.literal extra payload)))
      (toLittleEndian extra (payload.length - 1)) = payload.length := by
    cases extra with
    | zero =>
      rw [announcedLength, if_pos (by simp [toLittleEndian]), Tag.upper_make _ hupper]
      simp only [upper]
      omega
    | succ extra =>
      simp only [literalCapacity] at hcapacity
      have hvalue : littleEndian (toLittleEndian (extra + 1) (payload.length - 1)) = payload.length - 1 :=
        littleEndian_toLittleEndian (by omega)
      have hne : toLittleEndian (extra + 1) (payload.length - 1) ≠ [] := by simp [toLittleEndian]
      simp only [announcedLength, if_neg hne, hvalue]
      omega
  have hfields : splitAt? extra (toLittleEndian extra (payload.length - 1) ++ (payload ++ rest)) =
      some (toLittleEndian extra (payload.length - 1), payload ++ rest) :=
    splitAt?_eq_some_iff.2 ⟨by simp, rfl⟩
  simp only [encode, List.cons_append, read?_cons, hwidth, List.append_assoc, hfields, Option.bind_some,
    Tag.kind_make, hlength, splitAt?_append, length_toLittleEndian]

private theorem read?_encode_copy {form : CopyForm} {length offset : Nat} (rest : List UInt8)
    (hvalid : (copy form length offset).Valid) :
    read? ((copy form length offset).encode ++ rest) = some (copy form length offset, rest) := by
  have hupper := hvalid.upper_lt
  obtain ⟨hmin, hmax, hoffset⟩ := hvalid
  have hwidth : Tag.fieldWidth (Tag.make form.kind (upper (.copy form length offset))) =
      form.offsetWidth := fieldWidth_eq_offsetWidth (Tag.kind_make _ _)
  have hfields : splitAt? form.offsetWidth (toLittleEndian form.offsetWidth offset ++ rest) =
      some (toLittleEndian form.offsetWidth offset, rest) :=
    splitAt?_eq_some_iff.2 ⟨by simp, rfl⟩
  have hcopy : announcedCopy form (Tag.make form.kind (upper (.copy form length offset)))
      (toLittleEndian form.offsetWidth offset) = .copy form length offset := by
    cases form with
    | oneByte =>
      simp only [CopyForm.minLength, CopyForm.lengthCount, CopyForm.offsetBound] at hmin hmax hoffset
      simp only [upper] at hupper
      simp only [announcedCopy, Tag.upper_make _ hupper, upper, CopyForm.offsetWidth, toLittleEndian,
        littleEndian, UInt8.toNat_ofNat']
      congr 1 <;> omega
    | twoByte | fourByte =>
      simp only [CopyForm.minLength, CopyForm.lengthCount, CopyForm.offsetBound] at hmin hmax hoffset
      simp only [upper] at hupper
      simp only [announcedCopy, Tag.upper_make _ hupper, upper, CopyForm.offsetWidth]
      rw [littleEndian_toLittleEndian (by omega)]
      congr 1
      omega
  simp only [encode, List.cons_append, read?_cons, hwidth, hfields, Option.bind_some, Tag.kind_make]
  cases form <;> simp only [CopyForm.kind] at hcopy ⊢ <;> rw [hcopy]

/-- Reading undoes writing, whatever follows: no element's bytes begin another
element's bytes. -/
theorem read?_encode {element : Element} (rest : List UInt8) (hvalid : element.Valid) :
    read? (element.encode ++ rest) = some (element, rest) := by
  cases element with
  | literal extra payload => exact read?_encode_literal rest hvalid
  | copy form length offset => exact read?_encode_copy rest hvalid

theorem read?_eq_some_iff {bytes rest : List UInt8} {element : Element} :
    read? bytes = some (element, rest) ↔ element.Valid ∧ bytes = element.encode ++ rest := by
  constructor
  · exact encode_of_read?
  · rintro ⟨hvalid, rfl⟩
    exact read?_encode rest hvalid

end Snappy.Element
