import Snappy.Checked.Expansion
import Snappy.Proofs.Checked.Arithmetic
import Snappy.Proofs.Symbol.Expansion

namespace Snappy.Checked

theorem ofNat_zero : UInt64.ofNat 0 = 0 := rfl

theorem part_eq_ok {bytes : Bytes} {start stop : Nat} (hsize : bytes.size < 2 ^ 64)
    (horder : start ≤ stop) (hstop : stop ≤ bytes.size) :
    part bytes (.ofNat start) (.ofNat stop) = .ok (bytes.extract start stop) := by
  have hstart : (UInt64.ofNat start).toNat = start := toNat_ofNat (by omega)
  have hstop' : (UInt64.ofNat stop).toNat = stop := toNat_ofNat (by omega)
  have hwords : UInt64.ofNat start ≤ .ofNat stop :=
    (ofNat_le_ofNat_iff (by omega) (by omega)).2 horder
  rw [part, hstart, hstop', if_pos ⟨hwords, hstop⟩]

/-- A payload whose end does not fit in a word would end beyond any stream, so
that nothing is lost by not looking for it. -/
theorem payload?_eq_slice? {stream : Bytes} (hsize : stream.size < 2 ^ 64) (start length : UInt64) :
    payload? stream start length = slice? stream start.toNat length.toNat := by
  rw [payload?, slice?]
  by_cases hword : start.toNat + length.toNat < 2 ^ 64
  · have hend : (start + length).toNat = start.toNat + length.toNat := by
      rw [UInt64.toNat_add, Nat.mod_eq_of_lt hword]
    have horder : start ≤ start + length := by
      rw [UInt64.le_iff_toNat_le, hend]
      exact Nat.le_add_right _ _
    rw [add_eq_ok hword, ok_bind, part, hend]
    by_cases hfits : start.toNat + length.toNat ≤ stream.size
    · rw [if_pos ⟨horder, hfits⟩, if_pos hfits]
    · rw [if_neg fun hboth => hfits hboth.2, if_neg hfits]
  · have hoverflow : add start length = .error .overflow := if_neg hword
    rw [hoverflow, if_neg (by omega)]
    rfl

section Copy

variable {output : Bytes} {offset : Nat}

/-- Looking up the pattern goes on with the period of the output's end. -/
theorem cycle_eq_ok (index count : Nat) (hreaches : 1 ≤ offset ∧ offset ≤ output.size)
    (hsize : output.size < 2 ^ 64) (hcount : index + count < 2 ^ 64) :
    cycle (output.extract (output.size - offset) output.size) (.ofNat offset) count (.ofNat index)
        (periodicWindow output index offset hreaches) =
      .ok (periodicWindow output (index + count) offset hreaches) := by
  induction count generalizing index with
  | zero => rfl
  | succ count ih =>
    have hphase : output.size - offset + index % offset < output.size := by
      have hmod := Nat.mod_lt index hreaches.1
      omega
    have hword : (UInt64.ofNat index % .ofNat offset).toNat = index % offset := by
      rw [UInt64.toNat_mod, toNat_ofNat (by omega), toNat_ofNat (by omega)]
    have hpattern : (output.extract (output.size - offset) output.size).size = offset := by
      rw [Array.size_extract]
      omega
    have hbyte : itemAt (output.extract (output.size - offset) output.size)
        (.ofNat index % .ofNat offset) = .ok (output[output.size - offset + index % offset]) := by
      rw [itemAt_eq_ok (by omega)]
      simp only [hword, Array.getElem_extract]
    rw [cycle, hbyte, ok_bind, ← UInt64.ofNat_one, add_ofNat (by omega), ok_bind,
      ← periodicWindow_push hreaches hphase, ih (index + 1) (by omega), Nat.add_right_comm,
      Nat.add_assoc]

/-- The byte to be pushed is always `offset` places before the end, as both the
end and the place looked up move on by one with each byte. -/
theorem pushBack_eq_ok {start : Nat} (index count : Nat) (hoffset : 1 ≤ offset)
    (hplace : start + index + offset = output.size) (hroom : output.size + count < 2 ^ 64) :
    pushBack (.ofNat start) count (.ofNat index) output = .ok (appendCopy offset count output) := by
  induction count generalizing index output with
  | zero => rfl
  | succ count ih =>
    have hword : (UInt64.ofNat (start + index)).toNat = output.size - offset := by
      rw [toNat_ofNat (by omega)]
      omega
    have hbyte : itemAt output (.ofNat (start + index)) = .ok (output[output.size - offset]) := by
      rw [itemAt_eq_ok (by omega)]
      simp only [hword]
    have hsize : (output.push output[output.size - offset]).size = output.size + 1 :=
      Array.size_push _
    rw [pushBack, add_ofNat (by omega), ok_bind, hbyte, ok_bind, ← UInt64.ofNat_one,
      add_ofNat (by omega), ok_bind, ih (index + 1) (by omega) (by omega), appendCopy,
      dif_pos ⟨hoffset, by omega⟩]

end Copy

section Symbol

variable {stream output : Bytes} {length offset : UInt64}

/-- The comparison of a copy's offset with the size of the output refuses exactly
the offsets that do not reach. -/
theorem offset_refused_iff (houtput : output.size < 2 ^ 64) :
    (offset = 0 ∨ UInt64.ofNat output.size < offset) ↔
      ¬ (1 ≤ offset.toNat ∧ offset.toNat ≤ output.size) := by
  rw [UInt64.lt_iff_toNat_lt, toNat_ofNat houtput, ← UInt64.toNat_inj, UInt64.toNat_zero]
  omega

theorem start_eq_ok (houtput : output.size < 2 ^ 64) (hoffset : offset.toNat ≤ output.size) :
    sub (.ofNat output.size) offset = .ok (.ofNat (output.size - offset.toNat)) := by
  have hstart := sub_ofNat houtput hoffset
  rwa [UInt64.ofNat_toNat] at hstart

/-- What a copy that is no longer than its offset cuts out of the output. -/
theorem part_eq_periodicWindow (houtput : output.size < 2 ^ 64)
    (hreaches : 1 ≤ offset.toNat ∧ offset.toNat ≤ output.size) (hfast : length ≤ offset) :
    ∃ stop, add (.ofNat (output.size - offset.toNat)) length = .ok stop ∧
      part output (.ofNat (output.size - offset.toNat)) stop =
        .ok (periodicWindow output length.toNat offset.toNat hreaches) := by
  have hlength := UInt64.le_iff_toNat_le.1 hfast
  have hstop := add_ofNat (a := output.size - offset.toNat) (b := length.toNat) (by omega)
  rw [UInt64.ofNat_toNat] at hstop
  refine ⟨_, hstop, ?_⟩
  rw [part_eq_ok houtput (by omega) (by omega), periodicWindow_eq_extract hreaches hlength]

/-- In machine words a symbol contributes what it contributes in numbers, and no
step on the way is a fault. -/
theorem contribution_eq_ok (hstream : stream.size < 2 ^ 64) (houtput : output.size < 2 ^ 64)
    (word : WordSymbol) :
    contribution stream output word = .ok (word.symbol.contribution stream output) := by
  cases word with
  | literal length start =>
    rw [contribution, payload?_eq_slice? hstream, WordSymbol.symbol, Symbol.contribution]
    cases slice? stream start.toNat length.toNat <;> rfl
  | copy length offset =>
    rw [contribution, WordSymbol.symbol, Symbol.contribution]
    by_cases hreaches : 1 ≤ offset.toNat ∧ offset.toNat ≤ output.size
    · simp only [if_neg (mt (offset_refused_iff houtput).1 (not_not_intro hreaches)),
        start_eq_ok houtput hreaches.2, ok_bind, dif_pos hreaches]
      by_cases hfast : length ≤ offset
      · obtain ⟨stop, hstop, hpart⟩ := part_eq_periodicWindow houtput hreaches hfast
        rw [if_pos hfast, hstop, ok_bind, hpart]
        rfl
      · have hlength := length.toNat_lt
        have hcycle := cycle_eq_ok 0 length.toNat hreaches houtput (by omega)
        rw [UInt64.ofNat_toNat, Nat.zero_add, periodicWindow_zero, ofNat_zero] at hcycle
        rw [if_neg hfast, part_eq_ok houtput (by omega) (by omega), ok_bind, hcycle]
        rfl
    · rw [if_pos ((offset_refused_iff houtput).2 hreaches), dif_neg hreaches]
      rfl

/-- In machine words a symbol is expanded as it is in numbers, if there is room in
a word for the size of the longer output. -/
theorem expand_eq_ok (hstream : stream.size < 2 ^ 64) (houtput : output.size < 2 ^ 64)
    {word : WordSymbol}
    (hroom : ∀ added, word.symbol.contribution stream output = .ok added →
      (output ++ added).size < 2 ^ 64) :
    expand stream output word = .ok ((word.symbol.expand stream).run output) := by
  rw [Symbol.run_expand]
  cases word with
  | literal length start =>
    rw [expand, payload?_eq_slice? hstream, WordSymbol.symbol, Symbol.contribution]
    cases slice? stream start.toNat length.toNat <;> rfl
  | copy length offset =>
    rw [WordSymbol.symbol, Symbol.contribution] at hroom
    rw [expand, WordSymbol.symbol, Symbol.contribution]
    by_cases hreaches : 1 ≤ offset.toNat ∧ offset.toNat ≤ output.size
    · simp only [if_neg (mt (offset_refused_iff houtput).1 (not_not_intro hreaches)),
        start_eq_ok houtput hreaches.2, ok_bind, dif_pos hreaches]
      by_cases hfast : length ≤ offset
      · obtain ⟨stop, hstop, hpart⟩ := part_eq_periodicWindow houtput hreaches hfast
        rw [if_pos hfast, hstop, ok_bind, hpart]
        rfl
      · have hfits := hroom _ (dif_pos hreaches)
        rw [Array.size_append, size_periodicWindow] at hfits
        have hplace : output.size - offset.toNat + 0 + offset.toNat = output.size := by omega
        have hpush := pushBack_eq_ok 0 length.toNat hreaches.1 hplace hfits
        rw [ofNat_zero] at hpush
        rw [if_neg hfast, hpush, ← appendCopy_eq_append_periodicWindow hreaches]
        rfl
    · rw [if_pos ((offset_refused_iff houtput).2 hreaches), dif_neg hreaches]
      rfl

end Symbol

end Snappy.Checked
