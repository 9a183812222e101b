import Snappy.Proofs.Checked.Bits
import Snappy.Proofs.Checked.Build
import Snappy.Proofs.WidthMask.Codes

namespace Snappy.Checked

section Loop

variable {string : BitString} {total count consumed : Nat} {mask : Array UInt64}
  {bits : List Bool}

/-- The bits that a loop may still read: those before the total, without those that
are consumed. -/
def unread (string : BitString) (total consumed : Nat) : List Bool :=
  (string.bitsFromEnd.take total).drop consumed

theorem length_unread (hlength : total ≤ string.length) (consumed : Nat) :
    (unread string total consumed).length = total - consumed := by
  rw [unread, List.length_drop, List.length_take, string.length_bitsFromEnd, Nat.min_eq_left hlength]

theorem unread_add (count : Nat) :
    unread string total (consumed + count) = (unread string total consumed).drop count := by
  rw [unread, unread, List.drop_drop]

theorem bitAt_eq_ok_of_unread {first : Bool} {behind : List Bool} (hconsumed : consumed < 2 ^ 64)
    (hunread : unread string total consumed = first :: behind) :
    bitAt string.words.toArray (.ofNat consumed) = .ok first := by
  apply bitAt_eq_ok hconsumed
  have hfirst : (unread string total consumed)[0]? = some first := by rw [hunread, List.getElem?_cons_zero]
  rw [unread, List.getElem?_drop, Nat.add_zero, List.getElem?_take] at hfirst
  split at hfirst
  · rwa [string.getElem?_bitsFromEnd] at hfirst
  · cases hfirst

/-- One iteration of the loop where a bit is left. It stops if the code is cut short, and
otherwise marks the symbol and goes on behind the code. -/
theorem fill_succ (build : Build) {index : Nat} {wide : Bool} {behind : List Bool}
    (htotal : total < 2 ^ 64) (hlength : total ≤ string.length) (hconsumed : consumed ≤ total)
    (hindex : index + 1 < 2 ^ 64) (hunread : unread string total consumed = wide :: behind)
    (mask : Array UInt64) :
    fill build string.words.toArray (.ofNat total) (count + 1) (.ofNat index) (.ofNat consumed) mask =
      if behind.length + 1 < WidthCode.announcedSize wide then .ok none
      else (if wide then setBit mask (.ofNat index) else pure mask) >>=
        fill build string.words.toArray (.ofNat total) count (.ofNat (index + 1))
          (.ofNat (consumed + WidthCode.announcedSize wide)) := by
  have hleft := length_unread hlength consumed
  rw [hunread, List.length_cons] at hleft
  have hpositive : (0 : UInt64) < .ofNat (total - consumed) :=
    (ofNat_lt_ofNat_iff (a := 0) (by decide) (by omega)).2 (by omega)
  have hcost : (if wide then 3 else 2 : UInt64) = .ofNat (WidthCode.announcedSize wide) := by
    cases wide <;> rfl
  have hshort : UInt64.ofNat (total - consumed) < .ofNat (WidthCode.announcedSize wide) ↔
      behind.length + 1 < WidthCode.announcedSize wide := by
    rw [ofNat_lt_ofNat_iff (by omega) (by cases wide <;> decide), hleft]
  rw [fill, build.sub_ofNat htotal hconsumed, ok_bind]
  simp only [if_pos hpositive, bitAt_eq_ok_of_unread (by omega) hunread, ok_bind, hcost, hshort]
  split
  · rfl
  · rw [← UInt64.ofNat_one, build.add_ofNat hindex, build.add_ofNat (by omega)]
    cases wide <;> rfl

/-- One iteration of the loop where no bit is left. -/
theorem fill_of_nil (build : Build) (htotal : total < 2 ^ 64) (hlength : total ≤ string.length)
    (hconsumed : consumed ≤ total) (hunread : unread string total consumed = []) (index : UInt64)
    (mask : Array UInt64) :
    fill build string.words.toArray (.ofNat total) (count + 1) index (.ofNat consumed) mask =
      .ok none := by
  have hleft := length_unread hlength consumed
  rw [hunread, List.length_nil] at hleft
  rw [fill, build.sub_ofNat htotal hconsumed, ok_bind, ← hleft]
  rfl

/-- What the loop keeps up while `count` symbols are still to be marked: it has not
consumed more than there is, and the mask holds the bits marked so far, with room for
all others. -/
structure Ready (string : BitString) (total count consumed : Nat) (mask : Array UInt64)
    (bits : List Bool) : Prop where
  total_lt : total < 2 ^ 64
  total_le : total ≤ string.length
  consumed_le : consumed ≤ total
  holds : Holds mask bits
  room : bits.length + count ≤ wordSize * mask.size
  index_lt : bits.length + count < 2 ^ 64

/-- The loop with `count` symbols still to be marked. -/
def fillFrom (build : Build) (string : BitString) (total count consumed : Nat) (mask : Array UInt64)
    (bits : List Bool) : Except Fault (Option (Array UInt64 × UInt64)) :=
  fill build string.words.toArray (.ofNat total) count (.ofNat bits.length) (.ofNat consumed) mask

/-- Where there is room for the bit, marking the symbol is no fault. -/
theorem Ready.fillFrom_succ (build : Build) {wide : Bool} {behind : List Bool}
    (hready : Ready string total (count + 1) consumed mask bits)
    (hunread : unread string total consumed = wide :: behind) :
    ∃ marked, marked.size = mask.size ∧ Holds marked (bits ++ [wide]) ∧
      fillFrom build string total (count + 1) consumed mask bits =
        if behind.length + 1 < WidthCode.announcedSize wide then .ok none
        else fillFrom build string total count (consumed + WidthCode.announcedSize wide) marked
          (bits ++ [wide]) := by
  obtain ⟨htotal, hlength, hconsumed, hholds, hroom, hindex⟩ := hready
  obtain ⟨marked, hmarked, hsize, hbits⟩ := hholds.mark (by omega) (by omega) wide
  refine ⟨marked, hsize, hbits, ?_⟩
  rw [fillFrom, fill_succ build htotal hlength hconsumed (by omega) hunread, hmarked, ok_bind, fillFrom,
    List.length_append, List.length_singleton]

theorem Ready.fillFrom_of_nil (build : Build) (hready : Ready string total (count + 1) consumed mask bits)
    (hunread : unread string total consumed = []) :
    fillFrom build string total (count + 1) consumed mask bits = .ok none :=
  fill_of_nil build hready.total_lt hready.total_le hready.consumed_le hunread _ mask

/-- One iteration of the loop where a whole code is left. -/
theorem Ready.fillFrom_code (build : Build) {left : List Bool}
    (hready : Ready string total (count + 1) consumed mask bits) (code : WidthCode)
    (hunread : unread string total consumed = code.encode ++ left) :
    ∃ marked, marked.size = mask.size ∧
      Ready string total count (consumed + code.size) marked (bits ++ [code.isWide]) ∧
      unread string total (consumed + code.size) = left ∧
      fillFrom build string total (count + 1) consumed mask bits =
        fillFrom build string total count (consumed + code.size) marked (bits ++ [code.isWide]) := by
  obtain ⟨behind, hfirst⟩ : ∃ behind, code.encode ++ left = code.isWide :: behind := by
    cases code <;> exact ⟨_, rfl⟩
  have hbehind := congrArg List.length hfirst
  rw [List.length_append, code.length_encode, List.length_cons] at hbehind
  obtain ⟨marked, hsize, hbits, hfill⟩ := hready.fillFrom_succ build (hunread.trans hfirst)
  rw [← code.size_eq_announcedSize, if_neg (by omega)] at hfill
  have hleft := length_unread hready.total_le consumed
  rw [hunread, List.length_append, code.length_encode] at hleft
  have hroom := hready.room
  have hindex := hready.index_lt
  refine ⟨marked, hsize, ⟨hready.total_lt, hready.total_le, ?_, hbits, ?_, ?_⟩, ?_, hfill⟩
  · have hconsumed := hready.consumed_le
    omega
  · rw [List.length_append, List.length_singleton, hsize]
    omega
  · rw [List.length_append, List.length_singleton]
    omega
  · rw [unread_add, hunread, ← code.length_encode, List.drop_left]

/-- The outcome of the loop tells the codes that were found, if any: words that hold
their bits behind those held before, and the number of bits consumed by then. -/
def Reports (outcome : Except Fault (Option (Array UInt64 × UInt64))) (total size : Nat)
    (bits : List Bool) : Option (List WidthCode × List Bool) → Prop
  | none => outcome = .ok none
  | some (codes, rest) => ∃ filled, filled.size = size ∧
      Holds filled (bits ++ codes.map WidthCode.isWide) ∧
      outcome = .ok (some (filled, .ofNat (total - rest.length)))

theorem Reports.cons {outcome : Except Fault (Option (Array UInt64 × UInt64))} {size : Nat}
    {found : Option (List WidthCode × List Bool)} {code : WidthCode}
    (hreports : Reports outcome total size (bits ++ [code.isWide]) found) :
    Reports outcome total size bits (found.map fun (codes, rest) => (code :: codes, rest)) := by
  cases found with
  | none => exact hreports
  | some result =>
    obtain ⟨filled, hsize, hbits, houtcome⟩ := hreports
    exact ⟨filled, hsize, by rwa [List.append_assoc] at hbits, houtcome⟩

/-- The loop in machine words runs into no fault. It finds the codes that are read from
the bits before the total, and stops short where there are too few. -/
theorem Ready.reports (build : Build) {left : List Bool}
    (hready : Ready string total count consumed mask bits)
    (hunread : unread string total consumed = left) :
    Reports (fillFrom build string total count consumed mask bits) total mask.size bits
      (WidthCode.readAll? count left) := by
  fun_induction WidthCode.readAll? count left generalizing consumed mask bits with
  | case1 left =>
    have hleft := length_unread hready.total_le consumed
    rw [hunread] at hleft
    refine ⟨mask, rfl, ?_, ?_⟩
    · rw [List.map_nil, List.append_nil]
      exact hready.holds
    · rw [fillFrom, fill, hleft, Nat.sub_sub_self hready.consumed_le]
  | case2 count first left ih =>
    obtain ⟨marked, hsize, hnext, hbehind, hfill⟩ := hready.fillFrom_code build (.narrow first) hunread
    rw [hfill, ← hsize]
    exact (ih hnext hbehind).cons
  | case3 count first second left ih =>
    obtain ⟨marked, hsize, hnext, hbehind, hfill⟩ := hready.fillFrom_code build (.wide first second) hunread
    rw [hfill, ← hsize]
    exact (ih hnext hbehind).cons
  | case4 left count hnarrow hwide =>
    rcases WidthCode.short_of_no_code hnarrow hwide with rfl | ⟨wide, behind, rfl, hshort⟩
    · exact hready.fillFrom_of_nil build hunread
    · obtain ⟨marked, -, -, hfill⟩ := hready.fillFrom_succ build hunread
      rwa [if_pos hshort] at hfill

/-- Where no words are set aside for the mask, the first wide symbol is marked outside
them. Narrow ones are not marked at all, so that the loop may still run out of bits before
it meets a wide one. -/
theorem fill_of_no_words (build : Build) {index : Nat} {left : List Bool} (htotal : total < 2 ^ 64)
    (hlength : total ≤ string.length) (hconsumed : consumed ≤ total) (hindex : index + count < 2 ^ 64)
    (hcount : total - consumed < 2 * count) (hunread : unread string total consumed = left) :
    fill build string.words.toArray (.ofNat total) count (.ofNat index) (.ofNat consumed) #[] =
      if WidthCode.meetsWide left then .error .outOfBounds else .ok none := by
  have hleft := length_unread hlength consumed
  rw [hunread] at hleft
  obtain ⟨count, rfl⟩ : ∃ fewer, count = fewer + 1 := Nat.exists_eq_add_one_of_ne_zero (by omega)
  fun_induction WidthCode.meetsWide left generalizing count index consumed with
  | case1 first left ih =>
    rw [List.length_cons, List.length_cons] at hleft
    have hnext : unread string total (consumed + 2) = left := by rw [unread_add, hunread]; rfl
    obtain ⟨count, rfl⟩ : ∃ fewer, count = fewer + 1 := Nat.exists_eq_add_one_of_ne_zero (by omega)
    have hwhole : ¬ (first :: left).length + 1 < WidthCode.announcedSize false := by
      simp [WidthCode.announcedSize]
    rw [fill_succ build htotal hlength hconsumed (by omega) hunread, if_neg hwhole]
    exact ih (by omega) hnext (by omega) count (by omega) (by omega)
  | case2 first second left =>
    have hwhole : ¬ (first :: second :: left).length + 1 < WidthCode.announcedSize true := by
      simp [WidthCode.announcedSize]
    rw [fill_succ build htotal hlength hconsumed (by omega) hunread, if_neg hwhole]
    rfl
  | case3 left hnarrow hwide =>
    rcases WidthCode.short_of_no_code hnarrow hwide with rfl | ⟨wide, behind, rfl, hshort⟩
    · exact fill_of_nil build htotal hlength hconsumed hunread _ #[]
    · rw [fill_succ build htotal hlength hconsumed (by omega) hunread, if_pos hshort]
      rfl

end Loop

section Mask

variable {string : BitString} {limit : UInt64}

theorem add_rounding (build : Build) (hlimit : limit.toNat + 63 < 2 ^ 64) :
    build.add limit 63 = .ok (.ofNat (limit.toNat + 63)) := by
  have hsum : build.add (.ofNat limit.toNat) 63 = .ok (.ofNat (limit.toNat + 63)) :=
    build.add_ofNat hlimit
  rwa [UInt64.ofNat_toNat] at hsum

theorem ready_of_limit (string : BitString) (hlimit : limit.toNat + 63 < 2 ^ 64) :
    Ready string (string.length % 2 ^ 64) limit.toNat 0
      (Array.replicate (UInt64.ofNat (limit.toNat + 63) / 64).toNat 0) [] := by
  refine ⟨Nat.mod_lt _ (by decide), Nat.mod_le _ _, Nat.zero_le _, holds_replicate _, ?_, ?_⟩
  · rw [List.length_nil, Array.size_replicate, toNat_ofNat_div hlimit, wordSize]
    omega
  · rw [List.length_nil]
    omega

/-- Computing a mask in machine words is no fault where the limit can be rounded up to
whole words. A string whose length does not fit in a word looks shorter to it. -/
theorem readMask_eq_ok (build : Build) (string : BitString) (hlimit : limit.toNat + 63 < 2 ^ 64) :
    readMask build string limit =
      match WidthCode.readAll? limit.toNat (string.bitsFromEnd.take (string.length % 2 ^ 64)) with
      | none => .ok (.error .bitsExhausted)
      | some (codes, rest) => .ok (.ok ⟨pack (codes.map WidthCode.isWide), limit.toNat,
          string.length % 2 ^ 64 - rest.length⟩) := by
  have hreports := (ready_of_limit string hlimit).reports build rfl
  rw [unread, List.drop_zero] at hreports
  have hloop : fill build string.words.toArray (.ofNat string.length) limit.toNat 0 0
      (Array.replicate (UInt64.ofNat (limit.toNat + 63) / 64).toNat 0) =
        fillFrom build string (string.length % 2 ^ 64) limit.toNat 0
          (Array.replicate (UInt64.ofNat (limit.toNat + 63) / 64).toNat 0) [] := by
    rw [fillFrom, UInt64.ofNat_mod_size]
    rfl
  rw [readMask, add_rounding build hlimit, ok_bind]
  simp only [hloop]
  cases hfound : WidthCode.readAll? limit.toNat
      (string.bitsFromEnd.take (string.length % 2 ^ 64)) with
  | none =>
    rw [hfound] at hreports
    rw [hreports]
    rfl
  | some found =>
    obtain ⟨codes, rest⟩ := found
    rw [hfound] at hreports
    obtain ⟨filled, hsize, hholds, hfill⟩ := hreports
    obtain ⟨hlength, -⟩ := WidthCode.readAll?_eq_some_iff.1 hfound
    have hwords : filled.toList = pack (codes.map WidthCode.isWide) := by
      apply hholds.toList_eq_pack
      rw [hsize, Array.size_replicate, toNat_ofNat_div hlimit, List.nil_append, List.length_map, hlength,
        wordSize]
    have hconsumed : (UInt64.ofNat (string.length % 2 ^ 64 - rest.length)).toNat =
        string.length % 2 ^ 64 - rest.length := by
      apply toNat_ofNat
      exact Nat.lt_of_le_of_lt (Nat.sub_le _ _) (Nat.mod_lt _ (by decide))
    rw [hfill, ok_bind]
    simp only [hwords, hconsumed]
    rfl

/-- In machine words a mask is read as it is in numbers. -/
theorem readMask_eq_ok_read (build : Build) (hlimit : limit.toNat + 63 < 2 ^ 64)
    (hlength : string.length < 2 ^ 64) :
    readMask build string limit = .ok (WidthMask.read string limit.toNat) := by
  rw [readMask_eq_ok build string hlimit, Nat.mod_eq_of_lt hlength,
    List.take_of_length_le (Nat.le_of_eq string.length_bitsFromEnd), WidthMask.read]
  cases WidthCode.readAll? limit.toNat string.bitsFromEnd <;> rfl

theorem readMask_checking_eq_overflow (string : BitString) (hlimit : 2 ^ 64 ≤ limit.toNat + 63) :
    readMask .checking string limit = .error .overflow := by
  have hrounded : Build.checking.add limit 63 = .error .overflow := add_eq_overflow hlimit
  rw [readMask, hrounded]
  rfl

/-- What the rounded limit comes round to is less than a word, so that a wrapping build
sets no words aside. -/
theorem toNat_rounded (hlimit : 2 ^ 64 ≤ limit.toNat + 63) :
    ((limit + 63) / 64).toNat = 0 := by
  have hbound := limit.toNat_lt
  have hwrapped : (limit + 63).toNat = limit.toNat + 63 - 2 ^ 64 := by
    rw [UInt64.toNat_add]
    change (limit.toNat + 63) % 2 ^ 64 = _
    omega
  rw [UInt64.toNat_div, hwrapped]
  change (limit.toNat + 63 - 2 ^ 64) / 64 = 0
  omega

/-- What a wrapping build does with a limit that cannot be rounded up. It never comes to a
mask, as no string has bits for so many symbols. -/
theorem readMask_wrapping_eq_ite (string : BitString) (hlimit : 2 ^ 64 ≤ limit.toNat + 63) :
    readMask .wrapping string limit =
      if WidthCode.meetsWide (string.bitsFromEnd.take (string.length % 2 ^ 64)) then .error .outOfBounds
      else .ok (.error .bitsExhausted) := by
  have hbound := limit.toNat_lt
  have htotal : string.length % 2 ^ 64 < 2 ^ 64 := Nat.mod_lt _ (by decide)
  have hstart : 0 + limit.toNat < 2 ^ 64 := by omega
  have hloop := fill_of_no_words .wrapping htotal (Nat.mod_le _ _) (Nat.zero_le _) hstart (by omega) rfl
  rw [UInt64.ofNat_mod_size, unread, List.drop_zero] at hloop
  have hrounded : Build.wrapping.add limit 63 = .ok (limit + 63) := rfl
  rw [readMask, hrounded, ok_bind, toNat_rounded hlimit, Array.replicate_zero]
  change (fill .wrapping string.words.toArray (.ofNat string.length) limit.toNat (.ofNat 0) (.ofNat 0) #[] >>=
    _) = _
  rw [hloop]
  split <;> rfl

/-- Where machine words come to a mask, it is the one that numbers give. -/
theorem read_of_readMask {build : Build} {mask : WidthMask}
    (hread : readMask build string limit = .ok (.ok mask)) :
    WidthMask.read string limit.toNat = .ok mask := by
  by_cases hlimit : limit.toNat + 63 < 2 ^ 64
  · rw [readMask_eq_ok build string hlimit] at hread
    split at hread
    · cases hread
    · rename_i codes rest hcodes
      cases hread
      obtain ⟨hlength, hbits⟩ := WidthCode.readAll?_eq_some_iff.1 hcodes
      have hwhole := List.take_append_drop (string.length % 2 ^ 64) string.bitsFromEnd
      rw [hbits, List.append_assoc] at hwhole
      have hconsumed : string.length % 2 ^ 64 - rest.length = (WidthCode.encodeAll codes).length := by
        have htaken := congrArg List.length hbits
        rw [List.length_take, string.length_bitsFromEnd, Nat.min_eq_left (Nat.mod_le _ _),
          List.length_append] at htaken
        omega
      refine WidthMask.read_eq_ok_iff.2 ⟨codes, _, hlength, hwhole.symm, ?_⟩
      rw [hconsumed, WidthMask.ofCodes, hlength]
  · cases build with
    | checking =>
      rw [readMask_checking_eq_overflow string (Nat.le_of_not_lt hlimit)] at hread
      cases hread
    | wrapping =>
      rw [readMask_wrapping_eq_ite string (Nat.le_of_not_lt hlimit)] at hread
      split at hread <;> cases hread

/-- The words of a mask are as many as the limit needs, so that the bit of a symbol is
always there. -/
theorem isWide_eq_ok {mask : WidthMask} (hwords : mask.words.length = (mask.limit + 63) / 64)
    (index : UInt64) : isWide mask index = .ok (mask.isWide index.toNat) := by
  rw [isWide, WidthMask.isWide]
  by_cases hindex : index.toNat < mask.limit
  · obtain ⟨bit, hbit⟩ : ∃ bit, bitAt? mask.words index.toNat = some bit := by
      apply Option.ne_none_iff_exists'.1
      rw [ne_eq, bitAt?_eq_none_iff, hwords, wordSize]
      omega
    have hfound : bitAt mask.words.toArray (.ofNat index.toNat) = .ok bit :=
      bitAt_eq_ok index.toNat_lt hbit
    rw [UInt64.ofNat_toNat] at hfound
    rw [if_pos hindex, hfound, hbit, decide_eq_true hindex, Option.getD_some, Bool.true_and]
  · rw [if_neg hindex, decide_eq_false hindex, Bool.false_and]

theorem setBits_lt (word : UInt64) : setBits word < 2 ^ 32 := by
  have hle := List.count_le_length (a := true) (l := wordBits word)
  rw [length_wordBits, wordSize] at hle
  rw [setBits]
  omega

/-- Counting the set bits of words on in 32 bits comes to their number in 32 bits. -/
theorem countSetBits_word32 (build : Build) (words : List UInt64) (count : Nat) :
    (do countSetBits build words (← build.word32 count)) =
      build.word32 (count + (BitString.mk words).bitsFromEnd.count true) := by
  induction words generalizing count with
  | nil => exact bind_pure _
  | cons word words ih =>
    have hbits : (BitString.mk (word :: words)).bitsFromEnd.count true =
        setBits word + (BitString.mk words).bitsFromEnd.count true := by
      rw [BitString.bitsFromEnd, List.flatMap_cons, List.count_append]
      rfl
    rw [hbits, ← Nat.add_assoc, ← ih, ← build.add32_of_lt (setBits_lt word), bind_assoc]
    rfl

/-- The count of a mask made of codes is the number of wide ones, as far as 32 bits hold
it. -/
theorem wideCount_ofCodes (build : Build) (codes : List WidthCode) :
    wideCount build (.ofCodes codes) = build.word32 (codes.countP WidthCode.isWide) := by
  have hcount := countSetBits_word32 build (WidthMask.ofCodes codes).words 0
  rw [build.word32_of_lt (by decide), ok_bind, Nat.zero_add, WidthMask.count_bitsFromEnd_ofCodes] at hcount
  exact hcount

end Mask

end Snappy.Checked
