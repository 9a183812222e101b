import Mathlib.Algebra.GroupWithZero.Nat
import Snappy.Bytes.LittleEndian

namespace Snappy

theorem littleEndian_lt (bytes : List UInt8) : littleEndian bytes < 256 ^ bytes.length := by
  induction bytes with
  | nil => simp [littleEndian]
  | cons byte rest ih =>
    have hbyte := byte.toNat_lt
    simp only [littleEndian, List.length_cons, Nat.pow_succ]
    omega

/-- Writing a number that fits and reading it back gives the number. -/
theorem littleEndian_toLittleEndian {width n : Nat} (hfits : n < 256 ^ width) :
    littleEndian (toLittleEndian width n) = n := by
  induction width generalizing n with
  | zero =>
    have hzero : n = 0 := by simpa using hfits
    simp [toLittleEndian, littleEndian, hzero]
  | succ width ih =>
    have hquotient : n / 256 < 256 ^ width := by
      rw [Nat.pow_succ] at hfits
      omega
    simp only [toLittleEndian, littleEndian, ih hquotient, UInt8.toNat_ofNat']
    omega

end Snappy
