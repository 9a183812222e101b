import Mathlib.Algebra.BigOperators.Ring.Finset
import Snappy.Proofs.Checked.Header

namespace Snappy.Header

/-- The value of bytes as the sum of their low seven bits, each at its place. -/
theorem value_eq_sum (bytes : List UInt8) :
    value bytes =
      ∑ index ∈ Finset.range bytes.length, (bytes.getD index 0).toNat % 128 * 128 ^ index := by
  induction bytes with
  | nil => rfl
  | cons byte rest ih =>
    have hhigher : ∀ index ∈ Finset.range rest.length,
        ((byte :: rest).getD (index + 1) 0).toNat % 128 * 128 ^ (index + 1) =
          128 * ((rest.getD index 0).toNat % 128 * 128 ^ index) := by
      intro index _
      rw [List.getD_cons_succ, Nat.pow_succ, ← Nat.mul_assoc, Nat.mul_comm]
    rw [value, ih, List.length_cons, Finset.sum_range_succ', Finset.sum_congr rfl hhigher,
      ← Finset.mul_sum, List.getD_cons_zero, Nat.pow_zero, Nat.mul_one, Nat.add_comm]

/-- All bytes before the last have the highest bit set, and the last has not. -/
theorem ended_iff_getD {bytes : List UInt8} :
    Ended bytes ↔
      1 ≤ bytes.length ∧ (∀ index < bytes.length - 1, 0x80 ≤ bytes.getD index 0) ∧
        bytes.getD (bytes.length - 1) 0 < 0x80 := by
  simp only [UInt8.le_iff_toNat_le, UInt8.lt_iff_toNat_lt]
  constructor
  · intro hended
    induction hended with
    | last hlast => exact ⟨Nat.le_refl 1, nofun, hlast⟩
    | @more byte rest hmore hrest ih =>
      obtain ⟨hpos, hcontinued, hlast⟩ := ih
      obtain ⟨count, hcount⟩ := Nat.exists_eq_add_of_le' hpos
      rw [hcount, Nat.add_sub_cancel] at hcontinued hlast
      rw [List.length_cons, Nat.add_sub_cancel, hcount]
      refine ⟨by omega, ?_, by rwa [List.getD_cons_succ]⟩
      intro index hindex
      cases index with
      | zero => exact hmore
      | succ index =>
        rw [List.getD_cons_succ]
        exact hcontinued index (by omega)
  · rintro ⟨hpos, hcontinued, hlast⟩
    induction bytes with
    | nil => exact absurd hpos (by decide)
    | cons byte rest ih =>
      rw [List.length_cons, Nat.add_sub_cancel] at hcontinued hlast
      cases hcount : rest.length with
      | zero =>
        rw [hcount] at hlast
        rw [List.length_eq_zero_iff.1 hcount]
        exact .last hlast
      | succ count =>
        rw [hcount] at hcontinued hlast
        have hrest : Ended rest := by
          apply ih (by omega)
          · intro index hindex
            exact hcontinued (index + 1) (by omega)
          · rw [hcount, Nat.add_sub_cancel]
            exact hlast
        exact .more (hcontinued 0 (by omega)) hrest

/-- A header is read where, and only where, one stands at the front of the block. -/
theorem read_eq_ok_iff_declares {block : Bytes} {length width : Nat} :
    read block = .ok ⟨length, width⟩ ↔
      width ≤ block.size ∧ Declares (block.toList.take width) length := by
  constructor
  · intro hread
    obtain ⟨front, rest, hblock, hdeclares, hfound⟩ := declares_of_read hread
    have hwidth : front.length = width := hfound
    have hfront : block.toList.take width = front := by
      rw [hblock, List.take_append_of_le_length (Nat.le_of_eq hwidth.symm),
        List.take_of_length_le (Nat.le_of_eq hwidth)]
    have hsize : width ≤ block.size := by
      rw [← block.length_toList, hblock, List.length_append]
      omega
    exact ⟨hsize, by rwa [hfront]⟩
  · rintro ⟨hsize, hdeclares⟩
    have hlength : (block.toList.take width).length = width := by
      rw [List.length_take, block.length_toList, Nat.min_eq_left hsize]
    have hread := read_of_declares hdeclares (List.take_prefix width block.toList)
    rwa [hlength] at hread

theorem getD_take {block : Bytes} {index width : Nat} (hindex : index < width) :
    (block.toList.take width).getD index 0 = block.getD index 0 := by
  rw [List.getD_eq_getElem?_getD, List.getElem?_take_of_lt hindex, Array.getElem?_toList,
    Array.getD_eq_getD_getElem?]

section Front

variable {block : Bytes} {length width : Nat}

theorem length_take (hsize : width ≤ block.size) : (block.toList.take width).length = width := by
  rw [List.length_take, block.length_toList, Nat.min_eq_left hsize]

theorem value_take (hsize : width ≤ block.size) :
    value (block.toList.take width) =
      ∑ index ∈ Finset.range width, (block.getD index 0).toNat % 128 * 128 ^ index := by
  rw [value_eq_sum, length_take hsize]
  apply Finset.sum_congr rfl
  intro index hindex
  rw [getD_take (Finset.mem_range.1 hindex)]

theorem ended_take_iff (hsize : width ≤ block.size) :
    Ended (block.toList.take width) ↔
      1 ≤ width ∧ (∀ index < width - 1, 0x80 ≤ block.getD index 0) ∧
        block.getD (width - 1) 0 < 0x80 := by
  rw [ended_iff_getD, length_take hsize]
  apply and_congr_right
  intro hpos
  rw [getD_take (by omega)]
  apply and_congr_left
  intro _
  constructor
  · intro hcontinued index hindex
    rw [← getD_take (by omega : index < width)]
    exact hcontinued index hindex
  · intro hcontinued index hindex
    rw [getD_take (by omega)]
    exact hcontinued index hindex

theorem read_eq_ok_iff_digits :
    read block = .ok ⟨length, width⟩ ↔
      1 ≤ width ∧ width ≤ 5 ∧ width ≤ block.size ∧
        (∀ index < width - 1, 0x80 ≤ block.getD index 0) ∧ block.getD (width - 1) 0 < 0x80 ∧
        length = ∑ index ∈ Finset.range width, (block.getD index 0).toNat % 128 * 128 ^ index ∧
        length ≤ 0x7fffffff := by
  rw [read_eq_ok_iff_declares]
  constructor
  · rintro ⟨hsize, hended, hwidth, hvalue, hlength⟩
    obtain ⟨hpos, hcontinued, hlast⟩ := (ended_take_iff hsize).1 hended
    rw [length_take hsize] at hwidth
    rw [value_take hsize] at hvalue
    exact ⟨hpos, hwidth, hsize, hcontinued, hlast, hvalue.symm, hlength⟩
  · rintro ⟨hpos, hwidth, hsize, hcontinued, hlast, hvalue, hlength⟩
    have hended := (ended_take_iff hsize).2 ⟨hpos, hcontinued, hlast⟩
    refine ⟨hsize, hended, ?_, ?_, hlength⟩
    · rwa [length_take hsize]
    · rw [value_take hsize, hvalue]

theorem read_encode_append {suffix : List UInt8} (hlength : length ≤ maxLength) (hpos : 1 ≤ width)
    (hwidth : width ≤ maxWidth) (hfits : length < 128 ^ width) :
    read (encode width length ++ suffix).toArray = .ok ⟨length, width⟩ := by
  have hdeclares : Declares (encode width length) length := by
    rw [declares_iff_eq_encode, length_encode]
    exact ⟨⟨hpos, hwidth⟩, hfits, hlength, rfl⟩
  have hread : read (encode width length ++ suffix).toArray =
      .ok ⟨length, (encode width length).length⟩ :=
    read_of_declares hdeclares (List.prefix_append _ suffix)
  rwa [length_encode] at hread

theorem read_congr {other : Bytes} {header : Header} (hread : read block = .ok header)
    (hsame : other.toList.take header.width = block.toList.take header.width) :
    read other = .ok header := by
  obtain ⟨hsize, hdeclares⟩ := read_eq_ok_iff_declares.1 hread
  apply read_eq_ok_iff_declares.2
  refine ⟨?_, by rwa [hsame]⟩
  have hlength := length_take hsize
  rw [← hsame, List.length_take, other.length_toList] at hlength
  omega

end Front

/-- A header is read exactly. It takes as many bytes as have their highest bit set,
and the one behind them, and the length that it declares is the sum of the low seven
bits of each, with no bit lost on the way: in machine words every group of bits
reaches its place whole and finds it empty, whatever the bytes are. So all headers of
a length are read as this length, however many zero groups they end with and whatever
stands behind them, and a block that begins with the same header is read alike. -/
theorem read_digits :
    (∀ (block : Bytes) (length width : Nat),
      read block = .ok ⟨length, width⟩ ↔
        1 ≤ width ∧ width ≤ 5 ∧ width ≤ block.size ∧
          (∀ index < width - 1, 0x80 ≤ block.getD index 0) ∧ block.getD (width - 1) 0 < 0x80 ∧
          length = ∑ index ∈ Finset.range width, (block.getD index 0).toNat % 128 * 128 ^ index ∧
          length ≤ 0x7fffffff) ∧
    (∀ (length width : Nat) (suffix : List UInt8), length ≤ 0x7fffffff → 1 ≤ width → width ≤ 5 →
      length < 128 ^ width →
        read (encode width length ++ suffix).toArray = .ok ⟨length, width⟩) ∧
    (∀ (block other : Bytes) (header : Header), read block = .ok header →
      other.toList.take header.width = block.toList.take header.width →
        read other = .ok header) ∧
    ∀ block : Bytes, Checked.readHeader block = .ok (read block) := by
  refine ⟨?_, ?_, ?_, Checked.readHeader_eq_ok⟩
  · intro block length width
    exact read_eq_ok_iff_digits
  · intro length width suffix hlength hpos hwidth hfits
    exact read_encode_append hlength hpos hwidth hfits
  · intro block other header hread hsame
    exact read_congr hread hsame

/-- The greatest length takes all five bytes. The length 3 is padded to four, and is
read alike where nothing follows. -/
theorem read_digits_of_padded :
    read #[0xff, 0xff, 0xff, 0xff, 0x07, 0x61] = .ok ⟨0x7fffffff, 5⟩ ∧
      (3 ≤ 0x7fffffff ∧ 1 ≤ 4 ∧ 4 ≤ 5 ∧ 3 < 128 ^ 4 ∧
        read (encode 4 3 ++ [0x08, 0x61]).toArray = .ok ⟨3, 4⟩) ∧
      (#[0x83, 0x80, 0x80, 0x00] : Bytes).toList.take 4 =
        (encode 4 3 ++ [0x08, 0x61]).toArray.toList.take 4 ∧
      read #[0x83, 0x80, 0x80, 0x00] = .ok ⟨3, 4⟩ := by
  obtain ⟨hdigits, hpadded, hbehind, -⟩ := read_digits
  have hread := hpadded 3 4 [0x08, 0x61] (by decide) (by decide) (by decide) (by decide)
  have hgreatest := (hdigits #[0xff, 0xff, 0xff, 0xff, 0x07, 0x61] 0x7fffffff 5).2 (by decide)
  have hshorter := hbehind _ #[0x83, 0x80, 0x80, 0x00] _ hread rfl
  exact ⟨hgreatest, ⟨by decide, by decide, by decide, by decide, hread⟩, rfl, hshorter⟩

end Snappy.Header
