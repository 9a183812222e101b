import Snappy.Checked.Header
import Snappy.Proofs.Checked.Arithmetic
import Snappy.Proofs.Header.Reading

namespace Snappy.Checked

variable {shift gathered : UInt64}

theorem shiftLeft_eq_ok (byte : UInt8) (hshift : shift.toNat + 7 ≤ 64) :
    shiftLeft (byte &&& 0x7f).toUInt64 shift = .ok ((byte &&& 0x7f).toUInt64 <<< shift) := by
  have hplaces : shift < 64 := by
    rw [UInt64.lt_iff_toNat_lt]
    change shift.toNat < 64
    omega
  have hwhole : (byte &&& 0x7f).toUInt64.toNat <<< shift.toNat < 2 ^ 64 := by
    rw [Header.toNat_group, Nat.shiftLeft_eq]
    exact Header.group_lt byte hshift
  exact if_pos ⟨hplaces, hwhole⟩

/-- The bits gathered so far lie below the place of the next group. -/
theorem union_eq_ok (byte : UInt8) (hshift : shift.toNat + 7 ≤ 64)
    (hlow : gathered.toNat < 2 ^ shift.toNat) :
    union gathered ((byte &&& 0x7f).toUInt64 <<< shift) =
      .ok (gathered ||| ((byte &&& 0x7f).toUInt64 <<< shift)) := by
  apply if_pos
  apply UInt64.toNat_inj.1
  rw [UInt64.toNat_and, Header.toNat_group_shiftLeft byte hshift, ← Nat.shiftLeft_eq]
  apply Nat.eq_of_testBit_eq
  intro place
  rw [Nat.testBit_and, Nat.testBit_shiftLeft]
  by_cases hplace : shift.toNat ≤ place
  · have hclear : gathered.toNat.testBit place = false :=
      Nat.testBit_lt_two_pow (Nat.lt_of_lt_of_le hlow (Nat.pow_le_pow_right (by decide) hplace))
    rw [hclear, Bool.false_and]
    exact (Nat.zero_testBit place).symm
  · rw [decide_eq_false hplace, Bool.false_and, Bool.and_false]
    exact (Nat.zero_testBit place).symm

/-- Gathering in machine words is gathering, as long as the groups of all bytes
have a place within the word. -/
theorem gather_eq_ok {bytes : List UInt8} (width : Nat) (hshift : shift.toNat + 7 * bytes.length ≤ 64)
    (hlow : gathered.toNat < 2 ^ shift.toNat) :
    gather shift gathered width bytes = .ok (Header.gather shift gathered width bytes) := by
  induction bytes generalizing shift gathered width with
  | nil => rfl
  | cons byte bytes ih =>
    rw [List.length_cons] at hshift
    have hplace : shift.toNat + 7 ≤ 64 := by omega
    have hsum := Header.toNat_shift_add hplace
    have hmoved : add shift 7 = .ok (shift + 7) :=
      add_eq_ok (by change shift.toNat + 7 < 2 ^ 64; omega)
    rw [gather, shiftLeft_eq_ok byte hplace, ok_bind, union_eq_ok byte hplace hlow, ok_bind,
      Header.gather]
    by_cases hlast : byte < 0x80
    · simp only [if_pos hlast]
      rfl
    · simp only [if_neg hlast]
      rw [hmoved, ok_bind]
      exact ih (width + 1) (by rw [hsum]; omega)
        (by rw [hsum]; exact Header.gathered_lt byte hplace hlow)

/-- Reading a header in machine words returns what reading it returns, also where
no byte ends the header. -/
theorem readHeader_eq_ok (block : Bytes) : readHeader block = .ok (Header.read block) := by
  have hlength : (block.toList.take Header.maxWidth).length ≤ 5 := List.length_take_le 5 _
  have hgather : gather 0 0 0 (block.toList.take Header.maxWidth) =
      .ok (Header.gather 0 0 0 (block.toList.take Header.maxWidth)) :=
    gather_eq_ok 0 (by change 0 + _ ≤ 64; omega) (by decide)
  rw [readHeader, hgather, ok_bind, Header.read]
  cases Header.gather 0 0 0 (block.toList.take Header.maxWidth) with
  | none => rfl
  | some found =>
    simp only
    split <;> rfl

end Snappy.Checked
