import Mathlib.Algebra.GroupWithZero.Nat
import Snappy.Block.Header

namespace Snappy.Header

/-- The number whose base-128 digits are the low seven bits of the bytes, least
significant first. -/
def value : List UInt8 → Nat
  | [] => 0
  | byte :: rest => byte.toNat % 128 + 128 * value rest

/-- The header of the given width that declares the given length. Digits that
the length does not need are zero. -/
def encode : (width length : Nat) → List UInt8
  | 0, _ => []
  | 1, length => [UInt8.ofNat (length % 128)]
  | width + 2, length => UInt8.ofNat (128 + length % 128) :: encode (width + 1) (length / 128)

@[simp]
theorem length_encode (width length : Nat) : (encode width length).length = width := by
  fun_induction encode width length with
  | case1 => rfl
  | case2 => rfl
  | case3 length width ih => simp [ih]

/-- Writing a length that fits and taking the value of the bytes gives the
length. -/
theorem value_encode {width length : Nat} (hfits : length < 128 ^ width) :
    value (encode width length) = length := by
  fun_induction encode width length with
  | case1 => simp_all [value]
  | case2 length =>
    simp only [value, UInt8.toNat_ofNat']
    omega
  | case3 length width ih =>
    rw [Nat.pow_succ] at hfits
    simp only [value, ih (by omega), UInt8.toNat_ofNat']
    omega

theorem value_lt (bytes : List UInt8) : value bytes < 128 ^ bytes.length := by
  induction bytes with
  | nil => exact Nat.one_pos
  | cons byte rest ih =>
    rw [value, List.length_cons, Nat.pow_succ]
    omega

/-- Only the last of the bytes has a clear highest bit. -/
inductive Ended : List UInt8 → Prop where
  | last {byte : UInt8} (hlast : byte.toNat < 128) : Ended [byte]
  | more {byte : UInt8} {rest : List UInt8} (hmore : 128 ≤ byte.toNat) (hrest : Ended rest) :
      Ended (byte :: rest)

theorem ended_cons_iff {byte : UInt8} {rest : List UInt8} :
    Ended (byte :: rest) ↔ if byte.toNat < 128 then rest = [] else Ended rest := by
  by_cases hbyte : byte.toNat < 128
  · rw [if_pos hbyte]
    constructor
    · intro hended
      cases hended with
      | last _ => rfl
      | more hmore _ => omega
    · rintro rfl
      exact .last hbyte
  · rw [if_neg hbyte]
    constructor
    · intro hended
      cases hended with
      | last hlast => exact absurd hlast hbyte
      | more _ hrest => exact hrest
    · intro hrest
      exact .more (by omega) hrest

instance decidableEnded : (bytes : List UInt8) → Decidable (Ended bytes)
  | [] => isFalse nofun
  | byte :: rest =>
    haveI := decidableEnded rest
    decidable_of_iff' (if byte.toNat < 128 then rest = [] else Ended rest) ended_cons_iff

/-- The bytes are a header that declares the length. Nothing forbids zeros for
the highest digits, so most lengths have headers of several widths. -/
structure Declares (bytes : List UInt8) (length : Nat) : Prop where
  ended : Ended bytes
  width_le : bytes.length ≤ maxWidth
  value_eq : value bytes = length
  length_le : length ≤ maxLength

theorem declares_iff {bytes : List UInt8} {length : Nat} :
    Declares bytes length ↔
      Ended bytes ∧ bytes.length ≤ maxWidth ∧ value bytes = length ∧ length ≤ maxLength :=
  ⟨fun ⟨hended, hwidth, hvalue, hlength⟩ => ⟨hended, hwidth, hvalue, hlength⟩,
    fun ⟨hended, hwidth, hvalue, hlength⟩ => ⟨hended, hwidth, hvalue, hlength⟩⟩

instance decidableDeclares (bytes : List UInt8) (length : Nat) : Decidable (Declares bytes length) :=
  decidable_of_iff' _ declares_iff

theorem Ended.length_pos {bytes : List UInt8} (hended : Ended bytes) : 1 ≤ bytes.length := by
  cases hended <;> simp

theorem ended_encode {width : Nat} (length : Nat) (hwidth : 1 ≤ width) :
    Ended (encode width length) := by
  fun_induction encode width length with
  | case1 => omega
  | case2 length =>
    apply Ended.last
    rw [UInt8.toNat_ofNat']
    omega
  | case3 length width ih =>
    apply Ended.more
    · rw [UInt8.toNat_ofNat']
      omega
    · exact ih (by omega)

/-- A header has no spelling but the digits of its value at its own width. -/
theorem Ended.eq_encode {bytes : List UInt8} (hended : Ended bytes) :
    bytes = encode bytes.length (value bytes) := by
  induction hended with
  | @last byte hlast =>
    have hdigit : byte.toNat % 128 % 128 = byte.toNat := by omega
    simp only [value, List.length_singleton, Nat.mul_zero, Nat.add_zero, encode, hdigit,
      UInt8.ofNat_toNat]
  | @more byte rest hmore hrest ih =>
    have hbyte := byte.toNat_lt
    obtain ⟨width, hwidth⟩ := Nat.exists_eq_add_of_le' hrest.length_pos
    have hdigit : 128 + (byte.toNat % 128 + 128 * value rest) % 128 = byte.toNat := by omega
    have hhigher : (byte.toNat % 128 + 128 * value rest) / 128 = value rest := by omega
    rw [hwidth] at ih
    simp only [value, List.length_cons, hwidth, encode, hdigit, hhigher, UInt8.ofNat_toNat, ← ih]

/-- A length that is not too large has one header of every width that has room
for its digits, and no other. -/
theorem declares_iff_eq_encode {bytes : List UInt8} {length : Nat} :
    Declares bytes length ↔
      (1 ≤ bytes.length ∧ bytes.length ≤ maxWidth) ∧ length < 128 ^ bytes.length ∧
        length ≤ maxLength ∧ bytes = encode bytes.length length := by
  constructor
  · rintro ⟨hended, hwidth, rfl, hlength⟩
    exact ⟨⟨hended.length_pos, hwidth⟩, value_lt bytes, hlength, hended.eq_encode⟩
  · rintro ⟨⟨hpos, hwidth⟩, hfits, hlength, hbytes⟩
    have hended := ended_encode length hpos
    have hvalue := value_encode hfits
    rw [← hbytes] at hended hvalue
    exact ⟨hended, hwidth, hvalue, hlength⟩

/-- What is cut off the end of a header leaves only bytes that do not end it. -/
theorem Ended.continued_of_mem_take {bytes : List UInt8} (hended : Ended bytes) {count : Nat}
    (hcount : count < bytes.length) : ∀ byte ∈ bytes.take count, 128 ≤ byte.toNat := by
  induction hended generalizing count with
  | last hlast =>
    have hzero : count = 0 := by
      rw [List.length_singleton] at hcount
      omega
    subst hzero
    intro byte hbyte
    cases hbyte
  | more hmore hrest ih =>
    cases count with
    | zero =>
      intro byte hbyte
      cases hbyte
    | succ count =>
      rw [List.length_cons] at hcount
      intro byte hbyte
      rw [List.take_succ_cons, List.mem_cons] at hbyte
      rcases hbyte with rfl | hbyte
      · exact hmore
      · exact ih (by omega) byte hbyte

theorem continued_or_ended (bytes : List UInt8) :
    (∀ byte ∈ bytes, 128 ≤ byte.toNat) ∨ ∃ front rest, bytes = front ++ rest ∧ Ended front := by
  induction bytes with
  | nil => exact .inl (by simp)
  | cons byte bytes ih =>
    by_cases hbyte : byte.toNat < 128
    · exact .inr ⟨[byte], bytes, rfl, .last hbyte⟩
    · have hmore : 128 ≤ byte.toNat := by omega
      rcases ih with hall | ⟨front, rest, rfl, hended⟩
      · refine .inl ?_
        intro other hother
        rcases List.mem_cons.1 hother with rfl | hother
        · exact hmore
        · exact hall other hother
      · exact .inr ⟨byte :: front, rest, rfl, .more hmore hended⟩

/-- None of the bytes that may end a header ends one. -/
def Endless (bytes : List UInt8) : Prop := ∀ byte ∈ bytes.take 5, 128 ≤ byte.toNat

instance decidableEndless (bytes : List UInt8) : Decidable (Endless bytes) :=
  List.decidableBAll (fun byte : UInt8 => 128 ≤ byte.toNat) (bytes.take 5)

/-- The bytes begin with a header whose value no block may have for its length. -/
def Excessive (bytes : List UInt8) : Prop :=
  ∃ width ≤ 5, Ended (bytes.take width) ∧ 0x7fffffff < value (bytes.take width)

instance decidableExcessive (bytes : List UInt8) : Decidable (Excessive bytes) :=
  Nat.decidableExistsLE 5

theorem endless_or_ended (bytes : List UInt8) :
    Endless bytes ∨
      ∃ front rest, bytes = front ++ rest ∧ Ended front ∧ front.length ≤ maxWidth := by
  rcases continued_or_ended (bytes.take maxWidth) with hendless | ⟨front, rest, htake, hended⟩
  · exact .inl hendless
  · have hwidth : front.length ≤ maxWidth := by
      have hlength := List.length_take_le maxWidth bytes
      rw [htake, List.length_append] at hlength
      omega
    have hbytes : bytes = front ++ (rest ++ bytes.drop maxWidth) := by
      rw [← List.append_assoc, ← htake, List.take_append_drop]
    exact .inr ⟨front, _, hbytes, hended, hwidth⟩

end Snappy.Header
