import Snappy.Checked.Decoding
import Snappy.Element.Reader
import Snappy.Proofs.Checked.Arithmetic

namespace Snappy.Checked

theorem toNat_and_three (tag : UInt8) : (tag &&& 3).toNat = tag.toNat % 4 := by
  rw [UInt8.toNat_and]
  exact Nat.and_two_pow_sub_one_eq_mod tag.toNat 2

theorem and_three_eq {tag : UInt8} {kind : Tag.Kind} (hkind : Tag.kind tag = kind) :
    tag &&& 3 = UInt8.ofNat kind.code := by
  have hcode := kind.code_lt
  apply UInt8.toNat_inj.1
  rw [toNat_and_three, ← Tag.code_kind, hkind, UInt8.toNat_ofNat']
  omega

theorem and_three_eq_zero_iff (tag : UInt8) : tag &&& 3 = 0 ↔ Tag.kind tag = .literal := by
  constructor
  · intro hzero
    cases hkind : Tag.kind tag with
    | literal => rfl
    | oneByteCopy | twoByteCopy | fourByteCopy =>
      rw [and_three_eq hkind] at hzero
      exact absurd hzero (by decide)
  · exact and_three_eq

theorem toNat_shiftRight_two (tag : UInt8) : (tag >>> 2).toNat = Tag.upper tag := by
  rw [UInt8.toNat_shiftRight]
  exact Nat.shiftRight_eq_div_pow tag.toNat 2

theorem toUInt64_shiftRight_two (tag : UInt8) :
    (tag >>> 2).toUInt64 = UInt64.ofNat (Tag.upper tag) := by
  have hupper := Tag.upper_lt tag
  apply UInt64.toNat_inj.1
  rw [UInt8.toNat_toUInt64, toNat_shiftRight_two, toNat_ofNat (by omega)]

/-- The width of an opening is that of its tag with the bytes it announces. -/
theorem tagWidth_eq_ok (tag : UInt8) : tagWidth tag = .ok (.ofNat (Tag.width tag)) := by
  have hupper := Tag.upper_lt tag
  have hshift := toNat_shiftRight_two tag
  cases hkind : Tag.kind tag with
  | literal =>
    have hlow := and_three_eq hkind
    have hbase : tag >>> 2 < 60 ↔ Tag.upper tag < 60 := by
      rw [UInt8.lt_iff_toNat_lt, hshift]
      rfl
    rw [tagWidth, hlow, if_neg (by decide), if_neg (by decide), if_neg (by decide)]
    simp only [Tag.width, Tag.fieldWidth, hkind, Tag.extendedLengthBase]
    by_cases hshort : Tag.upper tag < 60
    · have hnone : Tag.upper tag + 1 - 60 = 0 := by omega
      rw [if_pos (hbase.2 hshort), hnone]
      rfl
    · have hextra : 1 + (Tag.upper tag - 59) = 1 + (Tag.upper tag + 1 - 60) := by omega
      rw [if_neg (mt hbase.1 hshort), toUInt64_shiftRight_two, ← hextra]
      change (sub (.ofNat (Tag.upper tag)) (.ofNat 59) >>= fun extra => add (.ofNat 1) extra) = _
      rw [sub_ofNat (by omega) (by omega), ok_bind, add_ofNat (by omega)]
  | oneByteCopy | twoByteCopy | fourByteCopy =>
    have hlow := and_three_eq hkind
    simp only [tagWidth, hlow, Tag.width, Tag.fieldWidth, hkind]
    rfl

/-- The high three bits of a tag and the byte behind it share no bit once the
former are moved up. -/
theorem toNat_shortOffset (tag low : UInt8) :
    (((tag &&& 0xe0).toUInt64 <<< 3) ||| low.toUInt64).toNat =
      low.toNat + 256 * (Tag.upper tag / 8) := by
  have htag := tag.toNat_lt
  have hbyte : low.toNat < 2 ^ 8 := low.toNat_lt
  have hhigh : (tag &&& 0xe0).toNat = 32 * (tag.toNat / 32) := by
    have hquotient : (tag.toNat &&& 0xe0) / 2 ^ 5 = tag.toNat / 32 := by
      rw [Nat.and_div_two_pow]
      change tag.toNat / 32 &&& (2 ^ 3 - 1) = _
      rw [Nat.and_two_pow_sub_one_eq_mod]
      omega
    have hremainder : (tag.toNat &&& 0xe0) % 2 ^ 5 = 0 := by
      rw [Nat.and_mod_two_pow]
      exact Nat.and_zero _
    rw [UInt8.toNat_and]
    change tag.toNat &&& 0xe0 = _
    omega
  have hshift : ((tag &&& 0xe0).toUInt64 <<< 3).toNat = 2 ^ 8 * (Tag.upper tag / 8) := by
    rw [UInt64.toNat_shiftLeft, UInt8.toNat_toUInt64, hhigh]
    change (32 * (tag.toNat / 32)) <<< 3 % 2 ^ 64 = _
    rw [Nat.shiftLeft_eq, Tag.upper]
    omega
  rw [UInt64.toNat_or, hshift, UInt8.toNat_toUInt64, ← Nat.two_pow_add_eq_or_of_lt hbyte]
  omega

section Opening

variable {opening : Bytes} {tag : UInt8} {fields : List UInt8}

theorem size_opening (hopening : opening.toList = tag :: fields) :
    opening.size = 1 + fields.length := by
  rw [← opening.length_toList, hopening, List.length_cons, Nat.add_comm]

/-- Reading all of the bytes behind the tag stays within the opening. -/
theorem field_opening (hopening : opening.toList = tag :: fields) (hwidth : fields.length ≤ 4) :
    field opening 1 fields.length = .ok (.ofNat (littleEndian fields)) := by
  have hsize := size_opening hopening
  have hfields : (opening.toList.drop 1).take fields.length = fields := by
    rw [hopening, List.drop_succ_cons, List.drop_zero, List.take_length]
  have hread : field opening (.ofNat 1) fields.length =
      .ok (.ofNat (littleEndian ((opening.toList.drop 1).take fields.length))) :=
    field_eq_ok (by omega) (by omega) (by omega)
  rwa [hfields] at hread

theorem littleEndian_fields_lt (hwidth : fields.length ≤ 4) : littleEndian fields < 2 ^ 32 := by
  calc littleEndian fields
      < 256 ^ fields.length := littleEndian_lt fields
    _ ≤ 256 ^ 4 := Nat.pow_le_pow_right (by decide) hwidth
    _ = 2 ^ 32 := by decide

theorem announcedLength_le (hfields : fields.length = Tag.fieldWidth tag) :
    Element.announcedLength tag fields ≤ 2 ^ 32 := by
  have hupper := Tag.upper_lt tag
  have hbound := littleEndian_fields_lt (hfields ▸ Tag.fieldWidth_le tag)
  rw [Element.announcedLength]
  split <;> omega

/-- Whether its length shares the tag or takes bytes behind it, a literal's length
is computed without a fault. -/
theorem literalLength_eq_ok (hopening : opening.toList = tag :: fields)
    (hfields : fields.length = Tag.fieldWidth tag) :
    literalLength opening tag (.ofNat (Tag.width tag)) =
      .ok (.ofNat (Element.announcedLength tag fields)) := by
  have hwidth : fields.length ≤ 4 := hfields ▸ Tag.fieldWidth_le tag
  have hupper := Tag.upper_lt tag
  have hbound := littleEndian_fields_lt hwidth
  have hlonger : (1 : UInt64) < UInt64.ofNat (Tag.width tag) ↔ fields ≠ [] := by
    rw [UInt64.lt_iff_toNat_lt, toNat_ofNat (by rw [Tag.width, ← hfields]; omega), Tag.width, ← hfields,
      ← List.length_pos_iff]
    change 1 < 1 + fields.length ↔ _
    omega
  rw [literalLength, Element.announcedLength]
  by_cases hshared : fields = []
  · rw [if_neg (by rw [hlonger]; exact not_not_intro hshared), if_pos hshared, toUInt64_shiftRight_two]
    exact add_ofNat (b := 1) (by omega)
  · have hcount : sub (.ofNat (Tag.width tag)) 1 = .ok (.ofNat (Tag.fieldWidth tag)) := by
      have hless : sub (.ofNat (1 + fields.length)) (.ofNat 1) = .ok (.ofNat (1 + fields.length - 1)) :=
        sub_ofNat (by omega) (by omega)
      rwa [Nat.add_sub_cancel_left, hfields] at hless
    rw [if_pos (hlonger.2 hshared), if_neg hshared, hcount, ok_bind, ← hfields,
      toNat_ofNat (by omega), field_opening hopening hwidth, ok_bind]
    exact add_ofNat (b := 1) (by omega)

theorem shortCopy_eq_ok {low : UInt8} (hopening : opening.toList = [tag, low]) :
    shortCopy opening tag =
      .ok (.ofNat (Tag.upper tag % 8 + 4), .ofNat (low.toNat + 256 * (Tag.upper tag / 8))) := by
  have hsize := size_opening hopening
  rw [List.length_singleton] at hsize
  have hlow : itemAt opening 1 = .ok low := by
    rw [itemAt_eq_ok (by rw [hsize]; decide)]
    have hitem : opening.toList[1]? = some low := by rw [hopening]; rfl
    rw [Array.getElem?_toList, Array.getElem?_eq_getElem (by omega)] at hitem
    exact congrArg Except.ok (Option.some.inj hitem)
  have hlength : ((tag >>> 2) &&& 7).toUInt64 = UInt64.ofNat (Tag.upper tag % 8) := by
    apply UInt64.toNat_inj.1
    rw [UInt8.toNat_toUInt64, UInt8.toNat_and, toNat_shiftRight_two, toNat_ofNat (by omega)]
    exact Nat.and_two_pow_sub_one_eq_mod (Tag.upper tag) 3
  have hoffset : ((tag &&& 0xe0).toUInt64 <<< 3) ||| low.toUInt64 =
      UInt64.ofNat (low.toNat + 256 * (Tag.upper tag / 8)) := by
    have hupper := Tag.upper_lt tag
    have hbyte := low.toNat_lt
    apply UInt64.toNat_inj.1
    rw [toNat_shortOffset, toNat_ofNat (by omega)]
  have hsum : add (.ofNat (Tag.upper tag % 8)) 4 = .ok (.ofNat (Tag.upper tag % 8 + 4)) :=
    add_ofNat (b := 4) (by omega)
  rw [shortCopy, hlow, ok_bind, hlength, hsum, ok_bind, hoffset]
  rfl

/-- The fields are as many as one of the two fixed reads takes, and no length in
six bits exceeds the longest copy. -/
theorem longCopy_eq_ok (hopening : opening.toList = tag :: fields)
    (hwidth : fields.length = 2 ∨ fields.length = 4) :
    longCopy opening tag (.ofNat (1 + fields.length)) =
      .ok (.ofNat (Tag.upper tag + 1), .ofNat (littleEndian fields)) := by
  have hupper := Tag.upper_lt tag
  have hcount : (if UInt64.ofNat (1 + fields.length) = 5 then 4 else 2) = fields.length := by
    rcases hwidth with htwo | hfour
    · rw [htwo]
      rfl
    · rw [hfour]
      rfl
  have hsum : add (.ofNat (Tag.upper tag)) 1 = .ok (.ofNat (Tag.upper tag + 1)) :=
    add_ofNat (b := 1) (by omega)
  have hshort : ¬ maxCopyLength < (UInt64.ofNat (Tag.upper tag + 1)).toNat := by
    rw [toNat_ofNat (by omega), maxCopyLength]
    omega
  rw [longCopy, hcount, field_opening hopening (by omega), ok_bind, toUInt64_shiftRight_two, hsum,
    ok_bind, if_neg hshort]
  rfl

/-- The length and the offset of every form of copy are computed without a fault,
and are those that the copy announces. -/
theorem copyFields_eq_ok (form : CopyForm) (hkind : Tag.kind tag = form.kind)
    (hopening : opening.toList = tag :: fields) (hfields : fields.length = Tag.fieldWidth tag) :
    ∃ length offset, Element.announcedCopy form tag fields = .copy form length offset ∧
      length < 2 ^ 32 ∧ offset < 2 ^ 32 ∧
      copyFields opening tag (.ofNat (Tag.width tag)) = .ok (.ofNat length, .ofNat offset) := by
  have hupper := Tag.upper_lt tag
  have hlow := and_three_eq hkind
  have hbound : littleEndian fields < 2 ^ 32 :=
    littleEndian_fields_lt (hfields ▸ Tag.fieldWidth_le tag)
  rw [Tag.width, ← hfields]
  simp only [Tag.fieldWidth, hkind] at hfields
  cases form with
  | oneByte =>
    obtain ⟨low, rfl⟩ := List.length_eq_one_iff.1 hfields
    have hbyte := low.toNat_lt
    refine ⟨Tag.upper tag % 8 + 4, low.toNat + 256 * (Tag.upper tag / 8), rfl, by omega, by omega, ?_⟩
    rw [copyFields, hlow, if_pos (by decide), shortCopy_eq_ok hopening]
  | twoByte =>
    refine ⟨_, _, rfl, by omega, by omega, ?_⟩
    rw [copyFields, hlow, if_neg (by decide), longCopy_eq_ok hopening (.inl hfields)]
  | fourByte =>
    refine ⟨_, _, rfl, by omega, by omega, ?_⟩
    rw [copyFields, hlow, if_neg (by decide), longCopy_eq_ok hopening (.inr hfields)]

end Opening

end Snappy.Checked
