import Mathlib.Algebra.GroupWithZero.Nat
import Snappy.Symbol.Expansion

namespace Snappy

variable {α : Type} {output : Array α} {length offset : Nat}

@[simp]
theorem size_periodicWindow (hreaches : 1 ≤ offset ∧ offset ≤ output.size) :
    (periodicWindow output length offset hreaches).size = length := by
  simp [periodicWindow]

theorem getElem?_periodicWindow (hreaches : 1 ≤ offset ∧ offset ≤ output.size) {i : Nat}
    (hi : i < length) :
    (periodicWindow output length offset hreaches)[i]? =
      output[output.size - offset + i % offset]? := by
  have hphase := Nat.mod_lt i hreaches.1
  rw [Array.getElem?_eq_getElem (by simpa using hi), Array.getElem?_eq_getElem (by omega)]
  simp [periodicWindow]

/-- A window no longer than its period is a part of the output. -/
theorem periodicWindow_eq_extract (hreaches : 1 ≤ offset ∧ offset ≤ output.size)
    (hlength : length ≤ offset) :
    periodicWindow output length offset hreaches =
      output.extract (output.size - offset) (output.size - offset + length) := by
  apply Array.ext_getElem?
  intro i
  rw [Array.getElem?_extract]
  by_cases hi : i < length
  · rw [getElem?_periodicWindow hreaches hi, Nat.mod_eq_of_lt (by omega), if_pos (by omega)]
  · rw [Array.getElem?_eq_none (by simpa using hi), if_neg (by omega)]

@[simp]
theorem periodicWindow_zero (hreaches : 1 ≤ offset ∧ offset ≤ output.size) :
    periodicWindow output 0 offset hreaches = #[] := by
  simp [periodicWindow]

theorem periodicWindow_push (hreaches : 1 ≤ offset ∧ offset ≤ output.size)
    (hphase : output.size - offset + length % offset < output.size) :
    periodicWindow output (length + 1) offset hreaches =
      (periodicWindow output length offset hreaches).push
        output[output.size - offset + length % offset] := by
  simp only [periodicWindow, Array.ofFn_succ]
  rfl

/-- Behind the output, each item is the one that lies `offset` places before it, be
it an item of the output or of the window itself. -/
theorem getElem?_append_periodicWindow (hreaches : 1 ≤ offset ∧ offset ≤ output.size) {position : Nat}
    (hlow : output.size ≤ position) (hhigh : position < output.size + length) :
    (output ++ periodicWindow output length offset hreaches)[position]? =
      (output ++ periodicWindow output length offset hreaches)[position - offset]? := by
  obtain ⟨i, rfl⟩ := Nat.exists_eq_add_of_le hlow
  have hitem := getElem?_periodicWindow hreaches (by omega : i < length)
  rw [Array.getElem?_append_right hlow, Nat.add_sub_cancel_left, hitem]
  -- Either the item looked at is one of the last `offset` items of the output, or it
  -- lies in the window one period earlier.
  by_cases hi : i < offset
  · rw [Nat.mod_eq_of_lt hi, Array.getElem?_append_left (by omega)]
    congr 1
    omega
  · have hearlier := getElem?_periodicWindow hreaches (by omega : i - offset < length)
    have hindex : output.size + i - offset - output.size = i - offset := by omega
    rw [Array.getElem?_append_right (by omega), hindex, hearlier, ← Nat.mod_eq_sub_mod (by omega)]

private theorem reaches_push (hreaches : 1 ≤ offset ∧ offset ≤ output.size) (item : α) :
    1 ≤ offset ∧ offset ≤ (output.push item).size := by
  rw [Array.size_push]
  omega

/-- The item `i` places into the window is, one place further on, the item of an
output to which the first item of the window has been added. When a period is
complete, that added item is the next one. -/
private theorem getElem?_next_period (hreaches : 1 ≤ offset ∧ offset ≤ output.size) (i : Nat) :
    (output.push output[output.size - offset])[output.size + 1 - offset + i % offset]? =
      output[output.size - offset + (i + 1) % offset]? := by
  have hphase := Nat.mod_lt i hreaches.1
  rw [Array.getElem?_push]
  -- Either the period ends behind item `i`, or the next item still belongs to it.
  by_cases hfull : i % offset + 1 = offset
  · have hnext : (i + 1) % offset = 0 := by
      rw [← Nat.mod_add_mod, hfull, Nat.mod_self]
    have hlast : output.size + 1 - offset + i % offset = output.size := by omega
    rw [if_pos hlast, hnext, Nat.add_zero, Array.getElem?_eq_getElem (by omega)]
  · have hnext : (i + 1) % offset = i % offset + 1 := by
      rw [← Nat.mod_add_mod, Nat.mod_eq_of_lt (by omega)]
    rw [if_neg (by omega), hnext]
    congr 1
    omega

theorem periodicWindow_succ (hreaches : 1 ≤ offset ∧ offset ≤ output.size) :
    periodicWindow output (length + 1) offset hreaches =
      #[output[output.size - offset]] ++
        periodicWindow (output.push output[output.size - offset]) length offset
          (reaches_push hreaches _) := by
  apply Array.ext_getElem?
  intro i
  cases i with
  | zero =>
    rw [getElem?_periodicWindow hreaches (Nat.succ_pos length), Nat.zero_mod, Nat.add_zero,
      Array.getElem?_append_left (by simp), Array.getElem?_eq_getElem (by omega)]
    rfl
  | succ i =>
    rw [Array.getElem?_append_right (by simp)]
    by_cases hi : i < length
    · have hnext := getElem?_periodicWindow (reaches_push hreaches output[output.size - offset]) hi
      rw [Array.size_push, getElem?_next_period hreaches] at hnext
      rw [getElem?_periodicWindow hreaches (by omega)]
      exact hnext.symm
    · rw [Array.getElem?_eq_none (by simpa using hi), Array.getElem?_eq_none (by simpa using hi)]

/-- Copying one item at a time appends the window that goes on with the period of
the last `offset` items. -/
theorem appendCopy_eq_append_periodicWindow (hreaches : 1 ≤ offset ∧ offset ≤ output.size) :
    appendCopy offset length output = output ++ periodicWindow output length offset hreaches := by
  induction length generalizing output with
  | zero => simp [appendCopy]
  | succ length ih =>
    rw [appendCopy, dif_pos hreaches, ih (reaches_push hreaches _), periodicWindow_succ hreaches,
      ← Array.append_assoc]
    rfl

theorem size_appendCopy (hreaches : 1 ≤ offset ∧ offset ≤ output.size) :
    (appendCopy offset length output).size = output.size + length := by
  rw [appendCopy_eq_append_periodicWindow hreaches, Array.size_append, size_periodicWindow]

/-- A copy can be broken off anywhere and gone on with: the items that its first
part has appended push back the place that it reads from by just their number. -/
theorem appendCopy_add (a b : Nat) (hreaches : 1 ≤ offset ∧ offset ≤ output.size) :
    appendCopy offset (a + b) output = appendCopy offset b (appendCopy offset a output) := by
  induction a generalizing output with
  | zero => rw [Nat.zero_add, appendCopy]
  | succ a ih =>
    rw [Nat.add_right_comm, appendCopy, appendCopy, dif_pos hreaches, dif_pos hreaches,
      ih (reaches_push hreaches _)]

/-- A copy moves items about without looking at them. -/
theorem appendCopy_map {β : Type} (f : α → β) (offset length : Nat) (output : Array α) :
    appendCopy offset length (output.map f) = (appendCopy offset length output).map f := by
  induction length generalizing output with
  | zero => rfl
  | succ length ih =>
    by_cases hreaches : 1 ≤ offset ∧ offset ≤ output.size
    · rw [appendCopy, appendCopy, dif_pos (by simpa using hreaches), dif_pos hreaches, ← ih,
        Array.map_push]
      simp
    · rw [appendCopy, appendCopy, dif_neg (by simpa using hreaches), dif_neg hreaches]

theorem mem_of_mem_appendCopy {item : α} (hitem : item ∈ appendCopy offset length output) :
    item ∈ output := by
  induction length generalizing output with
  | zero => exact hitem
  | succ length ih =>
    rw [appendCopy] at hitem
    split at hitem
    · rcases Array.mem_push.1 (ih hitem) with hold | rfl
      · exact hold
      · exact Array.getElem_mem _
    · exact hitem

namespace Symbol

theorem size_of_contribution {stream added : Array α} {symbol : Symbol}
    (hadded : symbol.contribution stream output = .ok added) : added.size = symbol.length := by
  cases symbol with
  | literal length start =>
    rw [contribution] at hadded
    split at hadded
    · rename_i payload hpayload
      obtain ⟨hfits, rfl⟩ := slice?_eq_some_iff.1 hpayload
      cases hadded
      rw [Array.size_extract, Symbol.length]
      omega
    · cases hadded
  | copy length offset =>
    rw [contribution] at hadded
    split at hadded
    · cases hadded
      exact size_periodicWindow _
    · cases hadded

theorem contribution_literal {stream : Array α} (output : Array α) {length start : Nat}
    (hfits : start + length ≤ stream.size) :
    (literal length start).contribution stream output =
      .ok (stream.extract start (start + length)) := by
  have hpayload := slice?_eq_some_iff.2 ⟨hfits, rfl⟩
  rw [contribution, hpayload]

/-- A symbol contributes to the output under two conditions, one on literals and
one on copies. -/
theorem exists_contribution {stream output : Array α} {symbol : Symbol}
    (hfits : symbol.FitsIn stream.size) (hreaches : symbol.Reaches output.size) :
    ∃ added, symbol.contribution stream output = .ok added := by
  cases symbol with
  | literal length start => exact ⟨_, contribution_literal output hfits⟩
  | copy length offset => exact ⟨_, dif_pos hreaches⟩

theorem contribution_eq_beyond {stream : Array α} (output : Array α) {symbol : Symbol}
    (hbeyond : ¬ symbol.FitsIn stream.size) :
    symbol.contribution stream output = .error .literalBeyondStream := by
  cases symbol with
  | literal length start =>
    have hnone : slice? stream start length = none := if_neg hbeyond
    rw [contribution, hnone]
  | copy length offset => exact absurd trivial hbeyond

theorem contribution_eq_outOfRange (stream : Array α) {output : Array α} {symbol : Symbol}
    (hbehind : ¬ symbol.Reaches output.size) :
    symbol.contribution stream output = .error .offsetOutOfRange := by
  cases symbol with
  | literal length start => exact absurd trivial hbehind
  | copy length offset => exact dif_neg hbehind

/-- A symbol is refused for one of two reasons, a literal for the first and a copy for the
second. -/
theorem contribution_eq_error_iff {stream output : Array α} {symbol : Symbol} {error : Error} :
    symbol.contribution stream output = .error error ↔
      error = .literalBeyondStream ∧ ¬ symbol.FitsIn stream.size ∨
        error = .offsetOutOfRange ∧ ¬ symbol.Reaches output.size := by
  constructor
  · intro hrefused
    by_cases hfits : symbol.FitsIn stream.size
    · by_cases hreaches : symbol.Reaches output.size
      · obtain ⟨added, hadded⟩ := exists_contribution hfits hreaches
        rw [hadded] at hrefused
        cases hrefused
      · rw [contribution_eq_outOfRange stream hreaches] at hrefused
        cases hrefused
        exact .inr ⟨rfl, hreaches⟩
    · rw [contribution_eq_beyond output hfits] at hrefused
      cases hrefused
      exact .inl ⟨rfl, hfits⟩
  · rintro (⟨rfl, hbeyond⟩ | ⟨rfl, hbehind⟩)
    · exact contribution_eq_beyond output hbeyond
    · exact contribution_eq_outOfRange stream hbehind

/-- Expanding a symbol appends what it contributes to the output. A symbol that
contributes nothing for an error leaves the output as it is. -/
theorem run_expand (stream output : Array α) (symbol : Symbol) :
    (symbol.expand stream).run output =
      match symbol.contribution stream output with
      | .ok added => .ok () (output ++ added)
      | .error error => .error error output := by
  cases symbol with
  | literal length start =>
    rw [expand, contribution]
    cases slice? stream start length <;> rfl
  | copy length offset =>
    have hrun : ((copy length offset).expand stream).run output =
        EStateM.run (if 1 ≤ offset ∧ offset ≤ output.size then modify (appendCopy offset length)
          else throw Error.offsetOutOfRange) output := rfl
    rw [hrun, contribution]
    by_cases hreaches : 1 ≤ offset ∧ offset ≤ output.size
    · rw [if_pos hreaches, dif_pos hreaches]
      exact congrArg (EStateM.Result.ok ()) (appendCopy_eq_append_periodicWindow hreaches)
    · rw [if_neg hreaches, dif_neg hreaches]
      rfl

theorem run_expand_eq_error_iff {stream output after : Array α} {symbol : Symbol} {error : Error} :
    (symbol.expand stream).run output = .error error after ↔
      symbol.contribution stream output = .error error ∧ after = output := by
  rw [run_expand]
  cases hcontribution : symbol.contribution stream output with
  | error found => simp [eq_comm]
  | ok added => simp

end Symbol

end Snappy
