import Snappy.Decoding.Expansion
import Snappy.Element.Expansion
import Snappy.Proofs.Element.Parse
import Snappy.Proofs.Symbol.Expansion

namespace Snappy

section Run

variable {α : Type} {stream output added : Array α}

/-- All that one record can do: it is refused unless it begins where the output
ends, it fails where its symbol does, and otherwise the records behind it go on
with what its symbol has appended. -/
theorem run_expandRecords_cons (stream output : Array α) (record : Record) (records : List Record) :
    (expandRecords stream (record :: records)).run output =
      if record.outputStart = output.size then
        match record.symbol.contribution stream output with
        | .ok added => (expandRecords stream records).run (output ++ added)
        | .error error => .error error output
      else .error .corrupt output := by
  have hrun : (expandRecords stream (record :: records)).run output =
      EStateM.run (if record.outputStart = output.size then
        record.symbol.expand stream >>= fun _ => expandRecords stream records
        else throw Error.corrupt) output := rfl
  rw [hrun]
  by_cases hstart : record.outputStart = output.size
  · rw [if_pos hstart, if_pos hstart, EStateM.run_bind, Symbol.run_expand]
    cases record.symbol.contribution stream output <;> rfl
  · rw [if_neg hstart, if_neg hstart]
    rfl

theorem run_expandRecords_cons_of_ok {record : Record} {records : List Record}
    (hstart : record.outputStart = output.size)
    (hadded : record.symbol.contribution stream output = .ok added) :
    (expandRecords stream (record :: records)).run output =
      (expandRecords stream records).run (output ++ added) := by
  rw [run_expandRecords_cons, if_pos hstart, hadded]

theorem run_expandRecords_cons_of_error {record : Record} {records : List Record} {error : Error}
    (hstart : record.outputStart = output.size)
    (herror : record.symbol.contribution stream output = .error error) :
    (expandRecords stream (record :: records)).run output = .error error output := by
  rw [run_expandRecords_cons, if_pos hstart, herror]

/-- Where the expansion of a record and those behind it succeeds, nothing was
wrong with that record. -/
theorem ok_of_run_expandRecords_cons {record : Record} {records : List Record} {final : Array α}
    (hrun : (expandRecords stream (record :: records)).run output = .ok () final) :
    record.outputStart = output.size ∧
      ∃ added, record.symbol.contribution stream output = .ok added ∧
        (expandRecords stream records).run (output ++ added) = .ok () final := by
  rw [run_expandRecords_cons] at hrun
  split at hrun
  · rename_i hstart
    split at hrun
    · rename_i added hadded
      exact ⟨hstart, added, hadded, hrun⟩
    · cases hrun
  · cases hrun

theorem Record.outputEnd_eq_size {record : Record} (hstart : record.outputStart = output.size)
    (hadded : record.symbol.contribution stream output = .ok added) :
    record.outputEnd = (output ++ added).size := by
  rw [outputEnd, hstart, Array.size_append, Symbol.size_of_contribution hadded]

theorem Decoding.expand_eq_ok_iff {decoding : Decoding} :
    decoding.expand stream = .ok output ↔
      (expandRecords stream decoding.records).run #[] = .ok () output := by
  rw [Decoding.expand]
  cases (expandRecords stream decoding.records).run #[] <;> simp

end Run

theorem toList_appendCopy {offset length : Nat} {output : Bytes} (hpos : 1 ≤ offset)
    (hoffset : offset ≤ output.size) :
    (appendCopy offset length output).toList = copyBack offset length output.toList := by
  induction length generalizing output with
  | zero => rfl
  | succ length ih =>
    have hbyte : output.toList[output.toList.length - offset]? =
        some output[output.size - offset] := by
      rw [Array.length_toList, Array.getElem?_toList]
      exact Array.getElem?_eq_getElem (by omega)
    rw [appendCopy, dif_pos ⟨hpos, hoffset⟩, ih (by rw [Array.size_push]; omega), copyBack, hbyte,
      Array.toList_push]
    rfl

/-- A literal's payload lies behind its tag and its length bytes. -/
theorem slice?_payload {stream : Bytes} {cursor extra : Nat} {payload : List UInt8}
    (hat : (Element.literal extra payload).encode <+: stream.toList.drop cursor) :
    slice? stream (cursor + 1 + extra) payload.length = some payload.toArray := by
  obtain ⟨rest, hrest⟩ := hat
  have hsize := congrArg List.length hrest
  rw [List.length_append, Element.length_encode, List.length_drop, stream.length_toList,
    Element.width] at hsize
  have hbehind : stream.toList.drop (cursor + 1 + extra) = payload ++ rest := by
    have hfields : (cursor + 1 + extra) = cursor + (1 + extra) := by omega
    rw [hfields, ← List.drop_drop, ← hrest, Element.encode, List.cons_append, Nat.add_comm 1 extra,
      List.drop_succ_cons, List.append_assoc, List.drop_left' (length_toLittleEndian _ _)]
  refine slice?_eq_some_iff.2 ⟨by omega, ?_⟩
  apply Array.toList_inj.1
  rw [Array.toList_extract, List.extract_eq_take_drop, hbehind, Nat.add_sub_cancel_left,
    List.take_left]

/-- A symbol found in a stream contributes to the output what its element adds
to it. -/
theorem contribution_symbolAt {stream output : Bytes} {cursor : Nat} {element : Element}
    (hreaches : element.Reaches output.size) (hat : element.encode <+: stream.toList.drop cursor) :
    ∃ added, (element.symbolAt cursor).contribution stream output = .ok added ∧
      (output ++ added).toList = element.expand output.toList := by
  cases element with
  | literal extra payload =>
    refine ⟨payload.toArray, ?_, Array.toList_append⟩
    rw [Element.symbolAt, Symbol.contribution, slice?_payload hat]
  | copy form length offset =>
    have hoffset : 1 ≤ offset ∧ offset ≤ output.size := hreaches
    refine ⟨periodicWindow output length offset hoffset, dif_pos hoffset, ?_⟩
    rw [← appendCopy_eq_append_periodicWindow hoffset, toList_appendCopy hoffset.1 hoffset.2]
    rfl

/-- Each record begins where the records before it have brought the output, so
no check of the expansion fails, and the expansion follows the elements from
left to right. -/
theorem expandRecords_locate {stream output : Bytes} {cursor : Nat} {elements : List Element}
    (hsound : Element.Sound output.size elements)
    (hat : Element.encodeAll elements <+: stream.toList.drop cursor) :
    (expandRecords stream (locate cursor output.size elements)).run output =
      .ok () (Element.expandAll output.toList elements).toArray := by
  induction elements generalizing cursor output with
  | nil => rfl
  | cons element elements ih =>
    obtain ⟨-, hreaches, hrest⟩ := hsound
    obtain ⟨hfirst, hothers⟩ := Element.encodeAll_cons_isPrefix_drop hat
    obtain ⟨added, hadded, hlist⟩ := contribution_symbolAt hreaches hfirst
    have hsize : (output ++ added).size = output.size + element.length := by
      rw [Array.size_append, Symbol.size_of_contribution hadded, Element.length_symbolAt]
    rw [← hsize] at hrest
    have hlater := ih hrest hothers
    rw [hsize, hlist] at hlater
    rw [locate, run_expandRecords_cons_of_ok rfl hadded, Element.expandAll_cons]
    exact hlater

theorem Decoding.expand_locate {stream : Bytes} {requested start : Nat} {elements : List Element}
    (hcontinues : Continues requested 0 (locate start 0 elements)) (hsound : Element.Sound 0 elements)
    (hat : Element.encodeAll elements <+: stream.toList.drop start) :
    (Decoding.mk (locate start 0 elements) requested hcontinues).expand stream =
      .ok (Element.expandAll [] elements).toArray :=
  have hempty : Element.Sound (#[] : Bytes).size elements := hsound
  Decoding.expand_eq_ok_iff.2 (expandRecords_locate hempty hat)

end Snappy
