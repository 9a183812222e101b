import Snappy.Proofs.WidthMask.Codes

namespace Snappy

namespace WidthCode

/-- How many codes the bits begin with. -/
def capacity : List Bool → Nat
  | false :: _ :: bits => capacity bits + 1
  | true :: _ :: _ :: bits => capacity bits + 1
  | _ => 0

theorem capacity_encode_append (code : WidthCode) (bits : List Bool) :
    capacity (code.encode ++ bits) = capacity bits + 1 := by
  cases code <;> rfl

theorem capacity_encodeAll_append (codes : List WidthCode) (rest : List Bool) :
    capacity (encodeAll codes ++ rest) = codes.length + capacity rest := by
  induction codes with
  | nil => rw [encodeAll_nil, List.nil_append, List.length_nil, Nat.zero_add]
  | cons code codes ih =>
    rw [encodeAll_cons, List.append_assoc, capacity_encode_append, ih, List.length_cons]
    omega

/-- Any bits are codes, and behind these at most two bits that are none. -/
theorem exists_eq_encodeAll_append (bits : List Bool) :
    ∃ codes rest, bits = encodeAll codes ++ rest ∧ codes.length = capacity bits ∧ rest.length ≤ 2 := by
  fun_induction capacity bits with
  | case1 first bits ih =>
    obtain ⟨codes, rest, hbits, hlength, hrest⟩ := ih
    refine ⟨.narrow first :: codes, rest, ?_, by rw [List.length_cons, hlength], hrest⟩
    rw [encodeAll_cons, List.append_assoc, ← hbits]
    rfl
  | case2 first second bits ih =>
    obtain ⟨codes, rest, hbits, hlength, hrest⟩ := ih
    refine ⟨.wide first second :: codes, rest, ?_, by rw [List.length_cons, hlength], hrest⟩
    rw [encodeAll_cons, List.append_assoc, ← hbits]
    rfl
  | case3 bits hnarrow hwide =>
    refine ⟨[], bits, rfl, rfl, ?_⟩
    rcases short_of_no_code hnarrow hwide with rfl | ⟨first, behind, rfl, hshort⟩
    · decide
    · have hannounced : announcedSize first ≤ 3 := by cases first <;> decide
      rw [List.length_cons]
      omega

/-- A code takes two bits or three, so that the number of codes is known but for the
widths. -/
theorem capacity_bounds (bits : List Bool) :
    bits.length / 3 ≤ capacity bits ∧ capacity bits ≤ bits.length / 2 := by
  obtain ⟨codes, rest, hbits, hcapacity, hrest⟩ := exists_eq_encodeAll_append bits
  have hlength := congrArg List.length hbits
  have hwide := List.countP_le_length (p := isWide) (l := codes)
  rw [List.length_append, length_encodeAll] at hlength
  omega

/-- Further bits may complete a code, and take none away. -/
theorem capacity_append_le (bits extra : List Bool) : capacity bits ≤ capacity (bits ++ extra) := by
  obtain ⟨codes, rest, hbits, hcapacity, -⟩ := exists_eq_encodeAll_append bits
  have hextended : capacity (bits ++ extra) = codes.length + capacity (rest ++ extra) := by
    rw [hbits, List.append_assoc, capacity_encodeAll_append]
  omega

end WidthCode

namespace WidthMask

/-- The greatest number of symbols whose widths the string tells. -/
def maxLimit (string : BitString) : Nat := WidthCode.capacity string.bitsFromEnd

section Codes

variable {string : BitString} {codes : List WidthCode} {rest : List Bool} {limit larger : Nat}

/-- Where the codes of a string are known, reading fewer of them gives their mask. -/
theorem read_eq_ok_take (hbits : string.bitsFromEnd = WidthCode.encodeAll codes ++ rest)
    (hlimit : limit ≤ codes.length) : read string limit = .ok (ofCodes (codes.take limit)) := by
  apply read_eq_ok_iff.2
  refine ⟨codes.take limit, WidthCode.encodeAll (codes.drop limit) ++ rest, ?_, ?_, rfl⟩
  · rw [List.length_take, Nat.min_eq_left hlimit]
  · rw [← List.append_assoc, ← WidthCode.encodeAll_append, List.take_append_drop, hbits]

theorem isWide_ofCodes_take {index : Nat} (hindex : index < limit) :
    (ofCodes (codes.take limit)).isWide index = (ofCodes codes).isWide index := by
  rw [isWide_ofCodes, isWide_ofCodes, List.getElem?_take_of_lt hindex]

/-- Further symbols consume two bits each, and the wide ones another. -/
theorem consumed_ofCodes_take (hle : limit ≤ larger) (hlarger : larger ≤ codes.length) :
    (ofCodes (codes.take larger)).consumed =
      (ofCodes (codes.take limit)).consumed + 2 * (larger - limit) +
        (ofCodes (codes.take larger)).wideWithin limit larger := by
  have hlength : (codes.take larger).length = larger := by rw [List.length_take, Nat.min_eq_left hlarger]
  have hfront : (codes.take larger).take limit = codes.take limit := by
    rw [List.take_take, Nat.min_eq_left hle]
  have hcount : (codes.take larger).countP WidthCode.isWide = (codes.take limit).countP WidthCode.isWide +
      ((codes.take larger).drop limit).countP WidthCode.isWide := by
    rw [← hfront, ← List.countP_append, List.take_append_drop]
  have hwithin := wideWithin_ofCodes limit (Nat.le_of_eq hlength.symm)
  rw [List.take_of_length_le (Nat.le_of_eq hlength)] at hwithin
  rw [consumed_ofCodes, consumed_ofCodes, WidthCode.length_encodeAll, WidthCode.length_encodeAll, hlength,
    List.length_take, Nat.min_eq_left (Nat.le_trans hle hlarger), hwithin, hcount]
  omega

end Codes

theorem exists_read_iff {string : BitString} {limit : Nat} :
    (∃ mask, read string limit = .ok mask) ↔ limit ≤ maxLimit string := by
  constructor
  · rintro ⟨mask, hread⟩
    obtain ⟨codes, rest, hlength, hbits, -⟩ := read_eq_ok_iff.1 hread
    rw [maxLimit, hbits, WidthCode.capacity_encodeAll_append, hlength]
    exact Nat.le_add_right _ _
  · intro hlimit
    obtain ⟨codes, rest, hbits, hcapacity, -⟩ :=
      WidthCode.exists_eq_encodeAll_append string.bitsFromEnd
    exact ⟨_, read_eq_ok_take hbits (by rwa [hcapacity])⟩

/-- A string tells the widths of as many symbols as its codes are, which are at least a
third and at most half of its bits: a mask is read for each limit up to this number, and
for none above. At most two bits are left when all are read. Masks of fewer symbols are
the front of those of more, which consume two bits for each further symbol, and another
for each of these that has three bytes. With words behind it, a string tells no fewer
symbols. -/
theorem read_threshold (string : BitString) :
    (string.length / 3 ≤ maxLimit string ∧ maxLimit string ≤ string.length / 2) ∧
      (∀ limit, (∃ mask, read string limit = .ok mask) ↔ limit ≤ maxLimit string) ∧
      (∃ mask, read string (maxLimit string) = .ok mask ∧ string.length ≤ mask.consumed + 2) ∧
      (∀ limit larger, limit ≤ larger → larger ≤ maxLimit string → ∃ mask whole,
        read string limit = .ok mask ∧ read string larger = .ok whole ∧
          (∀ index < limit, mask.isWide index = whole.isWide index) ∧
          whole.consumed = mask.consumed + 2 * (larger - limit) + whole.wideWithin limit larger) ∧
      ∀ extra, maxLimit string ≤ maxLimit ⟨string.words ++ extra⟩ := by
  obtain ⟨codes, rest, hbits, hcapacity, hrest⟩ :=
    WidthCode.exists_eq_encodeAll_append string.bitsFromEnd
  refine ⟨?_, fun limit => exists_read_iff, ?_, ?_, ?_⟩
  · rw [← string.length_bitsFromEnd]
    exact WidthCode.capacity_bounds _
  · refine ⟨_, read_eq_ok_take hbits (Nat.le_of_eq hcapacity.symm), ?_⟩
    rw [maxLimit, ← hcapacity, List.take_length, consumed_ofCodes, ← string.length_bitsFromEnd, hbits,
      List.length_append]
    omega
  · intro limit larger hle hlarger
    rw [maxLimit, ← hcapacity] at hlarger
    refine ⟨_, _, read_eq_ok_take hbits (Nat.le_trans hle hlarger), read_eq_ok_take hbits hlarger, ?_,
      consumed_ofCodes_take hle hlarger⟩
    intro index hindex
    rw [isWide_ofCodes_take hindex, isWide_ofCodes_take (Nat.lt_of_lt_of_le hindex hle)]
  · intro extra
    rw [maxLimit, maxLimit, BitString.bitsFromEnd, BitString.bitsFromEnd, List.flatMap_append]
    exact WidthCode.capacity_append_le _ _

/-- The last bit of the word announces a wide symbol, and is all that is left of it. -/
theorem read_threshold_of_cut_code :
    maxLimit ⟨[0x8000000000000016]⟩ = 31 ∧
      ¬ (∃ mask, read ⟨[0x8000000000000016]⟩ 32 = .ok mask) ∧
      (∃ mask, read ⟨[0x8000000000000016]⟩ 31 = .ok mask ∧ 64 ≤ mask.consumed + 2) ∧
      1 ≤ 3 ∧ 3 ≤ maxLimit ⟨[0x8000000000000016]⟩ ∧
      ∃ mask whole, read ⟨[0x8000000000000016]⟩ 1 = .ok mask ∧
        read ⟨[0x8000000000000016]⟩ 3 = .ok whole ∧
        (∀ index < 1, mask.isWide index = whole.isWide index) ∧
        whole.consumed = mask.consumed + 2 * (3 - 1) + whole.wideWithin 1 3 := by
  obtain ⟨-, hthreshold, hmost, hstable, -⟩ := read_threshold ⟨[0x8000000000000016]⟩
  have hlimit : maxLimit ⟨[0x8000000000000016]⟩ = 31 := by decide
  have hlarger : 3 ≤ maxLimit ⟨[0x8000000000000016]⟩ := by
    rw [hlimit]
    decide
  rw [hlimit] at hmost
  refine ⟨hlimit, ?_, hmost, by decide, hlarger, hstable 1 3 (by decide) hlarger⟩
  rw [hthreshold, hlimit]
  decide

end WidthMask

end Snappy
