import Snappy.Proofs.Bits.Packing
import Snappy.WidthMask.Codes

namespace Snappy

namespace WidthCode

/-- Codes take two bits each, and the wide ones another. -/
theorem length_encodeAll (codes : List WidthCode) :
    (encodeAll codes).length = 2 * codes.length + codes.countP isWide := by
  induction codes with
  | nil => rfl
  | cons code codes ih =>
    rw [encodeAll_cons, List.length_append, length_encode, ih, List.length_cons, List.countP_cons]
    cases code <;> simp only [size, isWide, if_true, Bool.false_eq_true, if_false] <;> omega

theorem count_map_isWide (codes : List WidthCode) : (codes.map isWide).count true = codes.countP isWide := by
  rw [List.count, List.countP_map]
  simp [Function.comp_def]

theorem getElem?_encode_append (code : WidthCode) (bits : List Bool) :
    (code.encode ++ bits)[0]? = some code.isWide := by
  cases code <;> rfl

/-- Behind the codes before it, a code begins with the bit that tells its width. -/
theorem getElem?_encodeAll_append {codes : List WidthCode} {index : Nat} (hindex : index < codes.length)
    (rest : List Bool) :
    (encodeAll codes ++ rest)[(encodeAll (codes.take index)).length]? = some codes[index].isWide := by
  have hcodes : encodeAll codes =
      encodeAll (codes.take index) ++ (codes[index].encode ++ encodeAll (codes.drop (index + 1))) := by
    rw [← encodeAll_cons, List.getElem_cons_drop, ← encodeAll_append, List.take_append_drop]
  rw [hcodes, List.append_assoc, List.getElem?_append_right (Nat.le_refl _), Nat.sub_self,
    List.append_assoc, getElem?_encode_append]

end WidthCode

namespace WidthMask

/-- A mask is read off the codes with which the bits begin, and off nothing else. -/
theorem read_eq_ok_iff {string : BitString} {limit : Nat} {mask : WidthMask} :
    read string limit = .ok mask ↔
      ∃ codes rest, codes.length = limit ∧ string.bitsFromEnd = WidthCode.encodeAll codes ++ rest ∧
        mask = ofCodes codes := by
  have hconsumed {codes : List WidthCode} {rest : List Bool}
      (hbits : string.bitsFromEnd = WidthCode.encodeAll codes ++ rest) :
      string.length - rest.length = (WidthCode.encodeAll codes).length := by
    rw [← string.length_bitsFromEnd, hbits, List.length_append, Nat.add_sub_cancel]
  constructor
  · intro hread
    rw [read] at hread
    split at hread
    · rename_i codes rest hcodes
      obtain ⟨hlength, hbits⟩ := WidthCode.readAll?_eq_some_iff.1 hcodes
      cases hread
      refine ⟨codes, rest, hlength, hbits, ?_⟩
      rw [ofCodes, hlength, hconsumed hbits]
    · cases hread
  · rintro ⟨codes, rest, hlength, hbits, rfl⟩
    rw [read, WidthCode.readAll?_eq_some_iff.2 ⟨hlength, hbits⟩]
    simp only [hconsumed hbits, ofCodes, hlength]

theorem length_encodeAll_le {string : BitString} {codes : List WidthCode} {rest : List Bool}
    (hbits : string.bitsFromEnd = WidthCode.encodeAll codes ++ rest) :
    (WidthCode.encodeAll codes).length ≤ string.length := by
  rw [← string.length_bitsFromEnd, hbits, List.length_append]
  exact Nat.le_add_right _ _

section OfCodes

variable {codes : List WidthCode}

@[simp]
theorem limit_ofCodes : (ofCodes codes).limit = codes.length := rfl

@[simp]
theorem consumed_ofCodes : (ofCodes codes).consumed = (WidthCode.encodeAll codes).length := rfl

@[simp]
theorem words_ofCodes : (ofCodes codes).words = pack (codes.map WidthCode.isWide) := rfl

theorem isWide_ofCodes (index : Nat) : (ofCodes codes).isWide index = codes[index]?.any WidthCode.isWide := by
  rw [WidthMask.isWide, words_ofCodes, getD_bitAt?_pack, limit_ofCodes, List.getElem?_map]
  by_cases hindex : index < codes.length
  · simp [hindex]
  · simp [hindex]

theorem isWide_ofCodes_of_lt {index : Nat} (hindex : index < codes.length) :
    (ofCodes codes).isWide index = codes[index].isWide := by
  rw [isWide_ofCodes, List.getElem?_eq_getElem hindex, Option.any_some]

theorem map_isWide_ofCodes (start : Nat) {stop : Nat} (hstop : stop ≤ codes.length) :
    (List.range' start (stop - start)).map (ofCodes codes).isWide =
      ((codes.take stop).drop start).map WidthCode.isWide := by
  apply List.ext_getElem
  · simp only [List.length_map, List.length_range', List.length_drop, List.length_take]
    omega
  intro index hindex _
  rw [List.length_map, List.length_range'] at hindex
  rw [List.getElem_map, List.getElem_range', List.getElem_map, List.getElem_drop, List.getElem_take,
    Nat.one_mul, isWide_ofCodes_of_lt (by omega)]

theorem wideWithin_ofCodes (start : Nat) {stop : Nat} (hstop : stop ≤ codes.length) :
    (ofCodes codes).wideWithin start stop = ((codes.take stop).drop start).countP WidthCode.isWide := by
  have hmap := congrArg (List.countP id) (map_isWide_ofCodes start hstop)
  rwa [List.countP_map, List.countP_map, Function.id_comp, Function.id_comp] at hmap

theorem wideWithin_length_ofCodes :
    (ofCodes codes).wideWithin 0 codes.length = codes.countP WidthCode.isWide := by
  rw [wideWithin_ofCodes 0 (Nat.le_refl _), List.drop_zero, List.take_length]

/-- The place of a symbol lies behind the codes of the symbols before it. -/
theorem place_ofCodes {index : Nat} (hindex : index ≤ codes.length) :
    (ofCodes codes).place index = (WidthCode.encodeAll (codes.take index)).length := by
  rw [place, wideWithin_ofCodes 0 hindex, List.drop_zero, WidthCode.length_encodeAll, List.length_take,
    Nat.min_eq_left hindex]

/-- The set bits of the words are those of the wide symbols, as the bits behind these are
clear. -/
theorem count_bitsFromEnd_ofCodes :
    (BitString.mk (ofCodes codes).words).bitsFromEnd.count true = codes.countP WidthCode.isWide := by
  rw [words_ofCodes, bitsFromEnd_pack, List.count_append, List.count_replicate,
    WidthCode.count_map_isWide]
  rfl

end OfCodes

end WidthMask

end Snappy
