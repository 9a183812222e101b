import Snappy.Checked.Build
import Snappy.Proofs.Checked.Arithmetic

namespace Snappy.Checked.Build

variable (build : Build)

/-- No build makes anything else of a sum that fits. -/
theorem add_ofNat {a b : Nat} (hfits : a + b < 2 ^ 64) :
    build.add (.ofNat a) (.ofNat b) = .ok (.ofNat (a + b)) := by
  cases build with
  | checking => exact Checked.add_ofNat hfits
  | wrapping => exact congrArg Except.ok (UInt64.ofNat_add a b).symm

theorem sub_ofNat {a b : Nat} (ha : a < 2 ^ 64) (hle : b ≤ a) :
    build.sub (.ofNat a) (.ofNat b) = .ok (.ofNat (a - b)) := by
  cases build with
  | checking => exact Checked.sub_ofNat ha hle
  | wrapping => exact congrArg Except.ok (UInt64.ofNat_sub hle).symm

theorem word32_of_lt {number : Nat} (hfits : number < 2 ^ 32) :
    build.word32 number = .ok (.ofNat number) := by
  cases build with
  | checking => exact if_pos hfits
  | wrapping => rfl

theorem word32_checking_of_le {number : Nat} (hlarge : 2 ^ 32 ≤ number) :
    checking.word32 number = .error .overflow :=
  if_neg (Nat.not_lt_of_le hlarge)

/-- Counting on in 32 bits comes to the sum in 32 bits. If that does not fit, a checking
build has met the fault by then, and a wrapping build has lost as much of the two parts as
of the sum. -/
theorem add32_word32 (a b : Nat) :
    (do build.add32 (← build.word32 a) (← build.word32 b)) = build.word32 (a + b) := by
  cases build with
  | checking =>
    by_cases hparts : a < 2 ^ 32 ∧ b < 2 ^ 32
    · rw [word32_of_lt _ hparts.1, word32_of_lt _ hparts.2, ok_bind, ok_bind, add32,
        UInt32.toNat_ofNat_of_lt' hparts.1, UInt32.toNat_ofNat_of_lt' hparts.2]
    · have hsum : checking.word32 (a + b) = .error .overflow := word32_checking_of_le (by omega)
      rw [hsum]
      by_cases ha : a < 2 ^ 32
      · have hb : checking.word32 b = .error .overflow := word32_checking_of_le (by omega)
        rw [word32_of_lt _ ha, hb]
        rfl
      · have ha : checking.word32 a = .error .overflow := word32_checking_of_le (Nat.le_of_not_lt ha)
        rw [ha]
        rfl
  | wrapping =>
    apply congrArg Except.ok
    rw [UInt32.ofNat_add, UInt32.ofNat_toNat, UInt32.ofNat_toNat, ← UInt32.ofNat_add]

theorem add32_of_lt {a b : Nat} (hb : b < 2 ^ 32) :
    (do build.add32 (← build.word32 a) (.ofNat b)) = build.word32 (a + b) := by
  rw [← add32_word32, word32_of_lt build hb]
  rfl

end Snappy.Checked.Build
