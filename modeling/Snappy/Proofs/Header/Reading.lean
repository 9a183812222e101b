import Snappy.Proofs.Header.Spelling

namespace Snappy.Header

/-- The group of seven bits that a byte contributes. -/
theorem toNat_group (byte : UInt8) : (byte &&& 0x7f).toUInt64.toNat = byte.toNat % 128 := by
  rw [UInt8.toNat_toUInt64, UInt8.toNat_and]
  exact Nat.and_two_pow_sub_one_eq_mod byte.toNat 7

theorem group_lt {shift : UInt64} (byte : UInt8) (hshift : shift.toNat + 7 ≤ 64) :
    byte.toNat % 128 * 2 ^ shift.toNat < 2 ^ 64 := by
  calc byte.toNat % 128 * 2 ^ shift.toNat
      < 2 ^ 7 * 2 ^ shift.toNat := Nat.mul_lt_mul_of_pos_right (by omega) (Nat.two_pow_pos _)
    _ = 2 ^ (7 + shift.toNat) := (Nat.pow_add 2 7 shift.toNat).symm
    _ ≤ 2 ^ 64 := Nat.pow_le_pow_right (by decide) (by omega)

/-- No bit of a group leaves the word when the group is moved to its place. -/
theorem toNat_group_shiftLeft {shift : UInt64} (byte : UInt8) (hshift : shift.toNat + 7 ≤ 64) :
    ((byte &&& 0x7f).toUInt64 <<< shift).toNat = byte.toNat % 128 * 2 ^ shift.toNat := by
  rw [UInt64.toNat_shiftLeft, toNat_group, Nat.mod_eq_of_lt (by omega : shift.toNat < 64),
    Nat.shiftLeft_eq, Nat.mod_eq_of_lt (group_lt byte hshift)]

/-- A group of seven bits lands above the bits gathered before it and within the
word, so that the union of the two is their sum. -/
theorem toNat_gathered {shift gathered : UInt64} (byte : UInt8)
    (hshift : shift.toNat + 7 ≤ 64) (hlow : gathered.toNat < 2 ^ shift.toNat) :
    (gathered ||| ((byte &&& 0x7f).toUInt64 <<< shift)).toNat =
      gathered.toNat + 2 ^ shift.toNat * (byte.toNat % 128) := by
  rw [UInt64.toNat_or, toNat_group_shiftLeft byte hshift, Nat.or_comm,
    Nat.mul_comm (byte.toNat % 128), ← Nat.two_pow_add_eq_or_of_lt hlow, Nat.add_comm]

/-- The gathered bits stay below the place of the group that comes next. -/
theorem gathered_lt {shift gathered : UInt64} (byte : UInt8)
    (hshift : shift.toNat + 7 ≤ 64) (hlow : gathered.toNat < 2 ^ shift.toNat) :
    (gathered ||| ((byte &&& 0x7f).toUInt64 <<< shift)).toNat < 2 ^ (shift.toNat + 7) := by
  calc (gathered ||| ((byte &&& 0x7f).toUInt64 <<< shift)).toNat
      = gathered.toNat + 2 ^ shift.toNat * (byte.toNat % 128) := toNat_gathered byte hshift hlow
    _ < 2 ^ shift.toNat + 2 ^ shift.toNat * (byte.toNat % 128) := by omega
    _ = 2 ^ shift.toNat * (byte.toNat % 128 + 1) := by rw [Nat.mul_succ, Nat.add_comm]
    _ ≤ 2 ^ shift.toNat * 2 ^ 7 := Nat.mul_le_mul_left _ (by omega)
    _ = 2 ^ (shift.toNat + 7) := (Nat.pow_add 2 shift.toNat 7).symm

theorem toNat_shift_add {shift : UInt64} (hshift : shift.toNat + 7 ≤ 64) :
    (shift + 7).toNat = shift.toNat + 7 := by
  rw [UInt64.toNat_add]
  exact Nat.mod_eq_of_lt (by change shift.toNat + 7 < 2 ^ 64; omega)

theorem gather_eq_none {shift gathered : UInt64} {width : Nat} {bytes : List UInt8}
    (hmore : ∀ byte ∈ bytes, 128 ≤ byte.toNat) : gather shift gathered width bytes = none := by
  induction bytes generalizing shift gathered width with
  | nil => rfl
  | cons byte bytes ih =>
    have hbyte := hmore byte List.mem_cons_self
    have hcontinued : ¬ byte < 0x80 := by
      rw [UInt8.lt_iff_toNat_lt]
      exact Nat.not_lt.2 hbyte
    simp only [gather, if_neg hcontinued]
    exact ih fun other hother => hmore other (List.mem_cons_of_mem byte hother)

/-- Gathering a whole header adds its value, shifted, to what was gathered
before it. -/
theorem Ended.gather_append {header : List UInt8} (hended : Ended header) (shift gathered : UInt64)
    (width : Nat) (rest : List UInt8) (hshift : shift.toNat + 7 * header.length ≤ 64)
    (hlow : gathered.toNat < 2 ^ shift.toNat) :
    ∃ length, gather shift gathered width (header ++ rest) = some (length, width + header.length) ∧
      length.toNat = gathered.toNat + 2 ^ shift.toNat * value header := by
  induction hended generalizing shift gathered width with
  | @last byte hlast =>
    rw [List.length_singleton] at hshift
    have hstep := toNat_gathered byte (by omega) hlow
    have hbyte : byte < 0x80 := UInt8.lt_iff_toNat_lt.2 hlast
    refine ⟨gathered ||| ((byte &&& 0x7f).toUInt64 <<< shift), ?_, ?_⟩
    · simp only [List.cons_append, gather, if_pos hbyte]
      rfl
    · rw [hstep]
      rfl
  | @more byte header hmore hrest ih =>
    rw [List.length_cons] at hshift
    have hstep := toNat_gathered byte (by omega) hlow
    have hbyte : ¬ byte < 0x80 := by
      rw [UInt8.lt_iff_toNat_lt]
      exact Nat.not_lt.2 hmore
    have hsum : (shift + 7).toNat = shift.toNat + 7 := toNat_shift_add (by omega)
    obtain ⟨length, hgather, hlength⟩ := ih (shift + 7)
      (gathered ||| ((byte &&& 0x7f).toUInt64 <<< shift)) (width + 1)
      (by rw [hsum]; omega) (by rw [hsum]; exact gathered_lt byte (by omega) hlow)
    refine ⟨length, ?_, ?_⟩
    · simp only [List.cons_append, gather, if_neg hbyte]
      rw [hgather, List.length_cons, Nat.add_assoc, Nat.add_comm 1]
    · rw [hlength, hstep, hsum, value, Nat.mul_add, Nat.pow_add, Nat.mul_assoc, Nat.add_assoc]

/-- The header with which a block begins is read as its value, unless that is
too large. -/
theorem read_append {block : Bytes} {header rest : List UInt8} (hended : Ended header)
    (hwidth : header.length ≤ maxWidth) (hblock : block.toList = header ++ rest) :
    read block =
      if value header ≤ maxLength then .ok ⟨value header, header.length⟩ else .error .blockTooLong := by
  have hbits : 7 * header.length ≤ 64 := by
    have hmax : maxWidth = 5 := rfl
    omega
  have htake : block.toList.take maxWidth = header ++ rest.take (maxWidth - header.length) := by
    rw [hblock, List.take_append, List.take_of_length_le hwidth]
  obtain ⟨length, hgather, hlength⟩ := hended.gather_append 0 0 0
    (rest.take (maxWidth - header.length)) (by simpa using hbits) (by decide)
  have hvalue : length.toNat = value header := by simpa using hlength
  rw [read, htake, hgather, ← hvalue, Nat.zero_add]

theorem read_of_declares {block : Bytes} {header : List UInt8} {length : Nat}
    (hdeclares : Declares header length) (hblock : header <+: block.toList) :
    read block = .ok ⟨length, header.length⟩ := by
  obtain ⟨rest, hrest⟩ := hblock
  rw [read_append hdeclares.ended hdeclares.width_le hrest.symm, hdeclares.value_eq,
    if_pos hdeclares.length_le]

theorem read_eq_unterminated {block : Bytes} (hendless : Endless block.toList) :
    read block = .error .headerUnterminated := by
  have hmore : ∀ byte ∈ block.toList.take maxWidth, 128 ≤ byte.toNat := hendless
  rw [read, gather_eq_none hmore]

/-- Only a header in front of the block makes reading it succeed. -/
theorem declares_of_read {block : Bytes} {header : Header} (hread : read block = .ok header) :
    ∃ front rest, block.toList = front ++ rest ∧ Declares front header.length ∧
      front.length = header.width := by
  rcases endless_or_ended block.toList with hendless | ⟨front, rest, hblock, hended, hwidth⟩
  · rw [read_eq_unterminated hendless] at hread
    cases hread
  · rw [read_append hended hwidth hblock] at hread
    split at hread
    · rename_i hbound
      cases hread
      exact ⟨front, _, hblock, ⟨hended, hwidth, rfl, hbound⟩, rfl⟩
    · cases hread

/-- Reading a header fails for two reasons only. -/
theorem read_error {block : Bytes} {error : Error} (hread : read block = .error error) :
    error = .headerUnterminated ∧ Endless block.toList ∨
      error = .blockTooLong ∧ Excessive block.toList := by
  rcases endless_or_ended block.toList with hendless | ⟨front, rest, hblock, hended, hwidth⟩
  · rw [read_eq_unterminated hendless] at hread
    cases hread
    exact .inl ⟨rfl, hendless⟩
  · rw [read_append hended hwidth hblock] at hread
    split at hread
    · cases hread
    · rename_i hbound
      cases hread
      refine .inr ⟨rfl, front.length, hwidth, ?_⟩
      rw [hblock, List.take_left]
      exact ⟨hended, Nat.lt_of_not_le hbound⟩

theorem read_eq_unterminated_iff {block : Bytes} :
    read block = .error .headerUnterminated ↔ Endless block.toList := by
  constructor
  · intro hread
    rcases read_error hread with ⟨-, hendless⟩ | ⟨hother, -⟩
    · exact hendless
    · cases hother
  · exact read_eq_unterminated

theorem read_eq_tooLong_iff {block : Bytes} :
    read block = .error .blockTooLong ↔ Excessive block.toList := by
  constructor
  · intro hread
    rcases read_error hread with ⟨hother, -⟩ | ⟨-, hexcessive⟩
    · cases hother
    · exact hexcessive
  · rintro ⟨width, hwidth, hended, hvalue⟩
    have hlength : (block.toList.take width).length ≤ maxWidth :=
      Nat.le_trans (List.length_take_le width _) hwidth
    have hbound : ¬ value (block.toList.take width) ≤ maxLength := Nat.not_le.2 hvalue
    rw [read_append hended hlength (List.take_append_drop width _).symm, if_neg hbound]

theorem exists_read {block : Bytes} (hendless : ¬ Endless block.toList)
    (hexcessive : ¬ Excessive block.toList) : ∃ header, read block = .ok header := by
  cases hread : read block with
  | error error =>
    rcases read_error hread with ⟨-, hfound⟩ | ⟨-, hfound⟩
    · exact absurd hfound hendless
    · exact absurd hfound hexcessive
  | ok header => exact ⟨header, rfl⟩

end Snappy.Header
