import Snappy.Checked.Arithmetic
import Snappy.Proofs.Bytes.LittleEndian

namespace Snappy.Checked

@[simp]
theorem ok_bind {α β : Type} (a : α) (f : α → Except Fault β) : (Except.ok a >>= f) = f a := rfl

theorem add_eq_ok {a b : UInt64} (hfits : a.toNat + b.toNat < 2 ^ 64) : add a b = .ok (a + b) :=
  if_pos hfits

theorem add_eq_overflow {a b : UInt64} (hlarge : 2 ^ 64 ≤ a.toNat + b.toNat) : add a b = .error .overflow :=
  if_neg (Nat.not_lt_of_le hlarge)

theorem toNat_ofNat {n : Nat} (hn : n < 2 ^ 64) : (UInt64.ofNat n).toNat = n :=
  UInt64.toNat_ofNat_of_lt' hn

theorem ofNat_lt_ofNat_iff {a b : Nat} (ha : a < 2 ^ 64) (hb : b < 2 ^ 64) :
    UInt64.ofNat a < UInt64.ofNat b ↔ a < b := UInt64.ofNat_lt_iff_lt ha hb

theorem ofNat_le_ofNat_iff {a b : Nat} (ha : a < 2 ^ 64) (hb : b < 2 ^ 64) :
    UInt64.ofNat a ≤ UInt64.ofNat b ↔ a ≤ b := UInt64.ofNat_le_iff_le ha hb

theorem ofNat_eq_zero_iff {n : Nat} (hn : n < 2 ^ 64) : UInt64.ofNat n = 0 ↔ n = 0 := by
  rw [← UInt64.toNat_inj, toNat_ofNat hn]
  rfl

theorem add_ofNat {a b : Nat} (hfits : a + b < 2 ^ 64) :
    add (.ofNat a) (.ofNat b) = .ok (.ofNat (a + b)) := by
  rw [UInt64.ofNat_add]
  apply add_eq_ok
  rw [toNat_ofNat (by omega), toNat_ofNat (by omega)]
  exact hfits

theorem sub_ofNat {a b : Nat} (ha : a < 2 ^ 64) (hle : b ≤ a) :
    sub (.ofNat a) (.ofNat b) = .ok (.ofNat (a - b)) := by
  rw [UInt64.ofNat_sub hle]
  apply sub_eq_ok
  exact (ofNat_le_ofNat_iff (by omega) ha).2 hle

/-- A byte and the bytes behind it, moved up by the width of a byte, share no
bit, so that their union is the number that they write together. -/
theorem toNat_or_shiftLeft_eight (byte : UInt8) {rest : UInt64} (hrest : rest.toNat < 2 ^ 56) :
    (byte.toUInt64 ||| (rest <<< 8)).toNat = byte.toNat + 256 * rest.toNat := by
  have hbyte : byte.toNat < 2 ^ 8 := byte.toNat_lt
  have hshift : (rest <<< 8).toNat = 2 ^ 8 * rest.toNat := by
    rw [UInt64.toNat_shiftLeft]
    change rest.toNat <<< 8 % 2 ^ 64 = _
    rw [Nat.shiftLeft_eq, Nat.mod_eq_of_lt (by omega), Nat.mul_comm]
  rw [UInt64.toNat_or, hshift, UInt8.toNat_toUInt64, Nat.or_comm, ← Nat.two_pow_add_eq_or_of_lt hbyte]
  omega

/-- Bytes that are there are read without a fault, as the number that they
write. -/
theorem field_eq_ok {bytes : Bytes} {start width : Nat} (hsize : bytes.size < 2 ^ 64)
    (hwidth : width ≤ 8) (hfits : start + width ≤ bytes.size) :
    field bytes (.ofNat start) width =
      .ok (.ofNat (littleEndian ((bytes.toList.drop start).take width))) := by
  induction width generalizing start with
  | zero => rfl
  | succ width ih =>
    have hstart : (UInt64.ofNat start).toNat = start := toNat_ofNat (by omega)
    have hbyte : itemAt bytes (.ofNat start) = .ok bytes[start] := by
      rw [itemAt_eq_ok (by omega)]
      simp only [hstart]
    have hnext : UInt64.ofNat start + 1 = UInt64.ofNat (start + 1) := (UInt64.ofNat_add start 1).symm
    have hrest : field bytes (.ofNat (start + 1)) width =
        .ok (.ofNat (littleEndian ((bytes.toList.drop (start + 1)).take width))) :=
      ih (by omega) (by omega)
    have hlow : littleEndian ((bytes.toList.drop (start + 1)).take width) < 2 ^ 56 := by
      have hlength := List.length_take_le width (bytes.toList.drop (start + 1))
      calc littleEndian ((bytes.toList.drop (start + 1)).take width)
          < 256 ^ ((bytes.toList.drop (start + 1)).take width).length := littleEndian_lt _
        _ ≤ 256 ^ 7 := Nat.pow_le_pow_right (by decide) (by omega)
        _ = 2 ^ 56 := by decide
    have hitems : (bytes.toList.drop start).take (width + 1) =
        bytes[start] :: (bytes.toList.drop (start + 1)).take width := by
      rw [List.drop_eq_getElem_cons (by simpa using (by omega : start < bytes.size)),
        List.take_succ_cons]
      rfl
    rw [field, hbyte, ok_bind, hnext, hrest, ok_bind, hitems, littleEndian]
    apply congrArg Except.ok
    apply UInt64.toNat_inj.1
    rw [toNat_or_shiftLeft_eight _ (by rwa [toNat_ofNat (by omega)]), toNat_ofNat (by omega),
      toNat_ofNat (by have := bytes[start].toNat_lt; omega)]

end Snappy.Checked
