import Snappy.Proofs.Checked.WidthMask
import Snappy.Proofs.WidthMask.Codes

namespace Snappy.WidthMask

/-- The mask shows the first `limit` symbols of the string, and nothing else. Its words
are as few as hold the bits of the symbols, and clear behind them. The bits that it
consumed are those of the codes, and of these the first bit of each is the one that the
mask repeats: where it lies follows from the symbols before it. -/
structure Represents (mask : WidthMask) (string : BitString) (limit : Nat) : Prop where
  limit_eq : mask.limit = limit
  length_words : mask.words.length = (limit + 63) / 64
  clear_behind : ∀ k, limit ≤ k → bitAt? mask.words k ≠ some true
  bitAt?_words : ∀ index < limit, bitAt? mask.words index = some (mask.isWide index)
  isWide_behind : ∀ index, limit ≤ index → mask.isWide index = false
  consumed_eq : mask.consumed = 2 * limit + mask.wideWithin 0 limit
  consumed_le : mask.consumed ≤ string.length
  fromEnd?_place : ∀ index < limit, string.fromEnd? (mask.place index) = some (mask.isWide index)

section OfCodes

variable {codes : List WidthCode}

theorem bitAt?_words_ofCodes {index : Nat} (hindex : index < codes.length) :
    bitAt? (ofCodes codes).words index = some ((ofCodes codes).isWide index) := by
  have hsome : (bitAt? (ofCodes codes).words index).isSome = true :=
    isSome_bitAt?_pack (by rwa [List.length_map])
  obtain ⟨bit, hbit⟩ := Option.isSome_iff_exists.1 hsome
  rw [isWide, hbit, limit_ofCodes, decide_eq_true hindex, Option.getD_some, Bool.true_and]

theorem bitAt?_words_ofCodes_ne {k : Nat} (hk : codes.length ≤ k) :
    bitAt? (ofCodes codes).words k ≠ some true := by
  intro hset
  have hbit := getD_bitAt?_pack (codes.map WidthCode.isWide) k
  rw [words_ofCodes] at hset
  rw [hset, List.getElem?_eq_none (by rwa [List.length_map])] at hbit
  cases hbit

theorem represents_ofCodes {string : BitString} {rest : List Bool}
    (hbits : string.bitsFromEnd = WidthCode.encodeAll codes ++ rest) :
    (ofCodes codes).Represents string codes.length where
  limit_eq := rfl
  length_words := by rw [words_ofCodes, length_pack, List.length_map]
  clear_behind _ hk := bitAt?_words_ofCodes_ne hk
  bitAt?_words _ hindex := bitAt?_words_ofCodes hindex
  isWide_behind index hindex := by
    rw [isWide, limit_ofCodes, decide_eq_false (Nat.not_lt.2 hindex), Bool.false_and]
  consumed_eq := by rw [consumed_ofCodes, WidthCode.length_encodeAll, wideWithin_length_ofCodes]
  consumed_le := length_encodeAll_le hbits
  fromEnd?_place index hindex := by
    rw [← string.getElem?_bitsFromEnd, hbits, place_ofCodes (Nat.le_of_lt hindex),
      WidthCode.getElem?_encodeAll_append hindex, isWide_ofCodes_of_lt hindex]

end OfCodes

/-- A mask that machine words come to represents the string, and takes nothing that is
not there on the way. Its symbols can all be looked up. They are counted in 32 bits: up to
the greatest such number the count is exact and tells the bits consumed; behind it a
checking build stops with a fault, and a wrapping build counts from nothing again. With a
limit that can be rounded up to whole words no build comes to a negative difference, or
beyond the words of the string or of the mask, neither where the string has enough bits nor
where it has too few: it gives the mask, or the error, that numbers give. -/
theorem readMask_represents (build : Checked.Build) (string : BitString) (limit : UInt64) :
    (∀ mask, Checked.readMask build string limit = .ok (.ok mask) →
      mask.Represents string limit.toNat ∧
      (∀ index : UInt64, Checked.isWide mask index = .ok (mask.isWide index.toNat)) ∧
      Checked.wideCount build mask = build.word32 (mask.wideWithin 0 limit.toNat) ∧
      (mask.wideWithin 0 limit.toNat < 2 ^ 32 → ∃ count, Checked.wideCount build mask = .ok count ∧
        count.toNat = mask.wideWithin 0 limit.toNat ∧
        mask.consumed = 2 * limit.toNat + count.toNat)) ∧
    (limit.toNat + 63 < 2 ^ 64 → string.length < 2 ^ 64 →
      Checked.readMask build string limit = .ok (read string limit.toNat)) := by
  constructor
  · intro mask hread
    obtain ⟨codes, rest, hlimit, hbits, rfl⟩ := read_eq_ok_iff.1 (Checked.read_of_readMask hread)
    have hrepresents := represents_ofCodes hbits
    rw [hlimit] at hrepresents
    have hcount : Checked.wideCount build (ofCodes codes) =
        build.word32 ((ofCodes codes).wideWithin 0 limit.toNat) := by
      rw [Checked.wideCount_ofCodes, ← hlimit, wideWithin_length_ofCodes]
    refine ⟨hrepresents, ?_, hcount, ?_⟩
    · intro index
      apply Checked.isWide_eq_ok
      rw [hrepresents.limit_eq, hrepresents.length_words]
    · intro hfits
      rw [build.word32_of_lt hfits] at hcount
      have hexact := UInt32.toNat_ofNat_of_lt' hfits
      exact ⟨_, hcount, hexact, by rw [hexact, hrepresents.consumed_eq]⟩
  · intro hlimit hlength
    exact Checked.readMask_eq_ok_read build hlimit hlength

/-- The code of the last symbol begins with the last bit of the first word and goes on
in the second. -/
theorem readMask_represents_across_words :
    Checked.readMask .wrapping ⟨[0xffffffffffffffff, 0x3]⟩ 22 = .ok (.ok ⟨[0x3fffff], 22, 66⟩) ∧
      (WidthMask.mk [0x3fffff] 22 66).Represents ⟨[0xffffffffffffffff, 0x3]⟩ 22 ∧
      Checked.isWide ⟨[0x3fffff], 22, 66⟩ 22 = .ok false ∧
      ((WidthMask.mk [0x3fffff] 22 66).wideWithin 0 22 < 2 ^ 32 ∧
        ∃ count, Checked.wideCount .wrapping ⟨[0x3fffff], 22, 66⟩ = .ok count ∧ count.toNat = 22 ∧
          66 = 2 * 22 + count.toNat) ∧
      (22 : UInt64).toNat + 63 < 2 ^ 64 ∧ (BitString.mk [0xffffffffffffffff, 0x3]).length < 2 ^ 64 ∧
      Checked.readMask .checking ⟨[0xffffffffffffffff, 0x3]⟩ 22 = .ok (.ok ⟨[0x3fffff], 22, 66⟩) := by
  have hread : read ⟨[0xffffffffffffffff, 0x3]⟩ 22 = .ok ⟨[0x3fffff], 22, 66⟩ :=
    read_eq_ok_iff.2 ⟨List.replicate 22 (.wide true true), List.replicate 62 false, rfl,
      by decide +kernel, by decide +kernel⟩
  have hlimit : (22 : UInt64).toNat + 63 < 2 ^ 64 := by decide
  have hlength : (BitString.mk [0xffffffffffffffff, 0x3]).length < 2 ^ 64 := by decide
  have hwide : (WidthMask.mk [0x3fffff] 22 66).wideWithin 0 22 = 22 := by decide
  have hfits : (WidthMask.mk [0x3fffff] 22 66).wideWithin 0 22 < 2 ^ 32 := by decide
  obtain ⟨hmask, hwrapping⟩ := readMask_represents .wrapping ⟨[0xffffffffffffffff, 0x3]⟩ 22
  obtain ⟨-, hchecking⟩ := readMask_represents .checking ⟨[0xffffffffffffffff, 0x3]⟩ 22
  have hfound := (hwrapping hlimit hlength).trans (congrArg Except.ok hread)
  obtain ⟨hrepresents, hlookup, -, hcount⟩ := hmask _ hfound
  obtain ⟨count, hcounted, hexact, hconsumed⟩ := hcount hfits
  exact ⟨hfound, hrepresents, hlookup 22, ⟨hfits, count, hcounted, hexact.trans hwide, hconsumed⟩,
    hlimit, hlength, (hchecking hlimit hlength).trans (congrArg Except.ok hread)⟩

section Ones

theorem bitsFromEnd_replicate_ones (count : Nat) :
    (BitString.mk (List.replicate count 0xffffffffffffffff)).bitsFromEnd =
      List.replicate (64 * count) true := by
  have hones : wordBits 0xffffffffffffffff = List.replicate 64 true := by decide
  rw [BitString.bitsFromEnd]
  induction count with
  | zero => rfl
  | succ count ih =>
    rw [List.replicate_succ, List.flatMap_cons, ih, hones, List.replicate_append_replicate,
      Nat.mul_succ, Nat.add_comm]

theorem encodeAll_replicate_wide (count : Nat) :
    WidthCode.encodeAll (List.replicate count (.wide true true)) = List.replicate (3 * count) true := by
  induction count with
  | zero => rfl
  | succ count ih =>
    rw [List.replicate_succ, WidthCode.encodeAll_cons, ih, Nat.mul_succ, Nat.add_comm (3 * count),
      ← List.replicate_append_replicate]
    rfl

/-- Words of nothing but set bits tell wide symbols, a third as many as their bits. -/
theorem read_ones (count : Nat) :
    read ⟨List.replicate (3 * count) 0xffffffffffffffff⟩ (64 * count) =
      .ok (ofCodes (List.replicate (64 * count) (.wide true true))) := by
  refine read_eq_ok_iff.2 ⟨_, [], List.length_replicate, ?_, rfl⟩
  rw [bitsFromEnd_replicate_ones, encodeAll_replicate_wide, List.append_nil, Nat.mul_left_comm]

theorem countP_replicate_wide (count : Nat) :
    (List.replicate count (WidthCode.wide true true)).countP WidthCode.isWide = count := by
  rw [List.countP_replicate]
  rfl

end Ones

/-- Two bounds that cannot be done without. With the greatest limit a set bit alone is
enough for a fault: a checking build meets it when it rounds the limit up, and a wrapping
build, for which nothing is left of the rounded limit, when it marks the first symbol. Of
201326592 words of set bits all builds make a mask of 2 ^ 32 wide symbols, which none of
them can count in 32 bits. -/
theorem readMask_represents_within_bounds_only :
    (Checked.readMask .checking ⟨[0x1]⟩ 0xffffffffffffffff = .error .overflow ∧
      Checked.readMask .wrapping ⟨[0x1]⟩ 0xffffffffffffffff = .error .outOfBounds) ∧
    ∃ mask, (∀ build, Checked.readMask build ⟨List.replicate (3 * 2 ^ 26) 0xffffffffffffffff⟩ 0x100000000 =
        .ok (.ok mask)) ∧
      mask.wideWithin 0 (2 ^ 32) = 2 ^ 32 ∧
      Checked.wideCount .checking mask = .error .overflow ∧ Checked.wideCount .wrapping mask = .ok 0 := by
  have hgreatest : 2 ^ 64 ≤ (0xffffffffffffffff : UInt64).toNat + 63 := by decide
  -- The number of words stays a variable, so that nothing ever evaluates so many.
  obtain ⟨count, hwords⟩ : ∃ count, 2 ^ 26 = count := ⟨_, rfl⟩
  have hlimit : (0x100000000 : UInt64).toNat = 64 * count := by rw [← hwords]; decide
  have hsymbols : 2 ^ 32 = 64 * count := by rw [← hwords]; decide
  rw [hwords]
  refine ⟨⟨Checked.readMask_checking_eq_overflow _ hgreatest, ?_⟩,
    ofCodes (List.replicate (64 * count) (.wide true true)), ?_, ?_, ?_, ?_⟩
  · rw [Checked.readMask_wrapping_eq_ite _ hgreatest, if_pos (by decide +kernel)]
  · intro build
    have hlength : (BitString.mk (List.replicate (3 * count) 0xffffffffffffffff)).length < 2 ^ 64 := by
      rw [BitString.length, List.length_replicate, wordSize]
      omega
    rw [Checked.readMask_eq_ok_read build (by decide) hlength, hlimit, read_ones]
  · have hwithin : (ofCodes (List.replicate (64 * count) (.wide true true))).wideWithin 0 _ = _ :=
      wideWithin_length_ofCodes
    rw [countP_replicate_wide, List.length_replicate] at hwithin
    rw [hsymbols, hwithin]
  · rw [Checked.wideCount_ofCodes, countP_replicate_wide, ← hsymbols]
    rfl
  · rw [Checked.wideCount_ofCodes, countP_replicate_wide, ← hsymbols]
    rfl

end Snappy.WidthMask
