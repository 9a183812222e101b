import Snappy.Proofs.Decoding.Expansion
import Snappy.Proofs.Decoding.Records

namespace Snappy

section Run

variable {α : Type} {stream output final : Array α}

/-- What an expansion has put out stays at the front of all that it puts out
later. -/
theorem exists_append_of_run_expandRecords {records : List Record}
    (hrun : (expandRecords stream records).run output = .ok () final) :
    ∃ rest, final = output ++ rest := by
  induction records generalizing output with
  | nil =>
    cases hrun
    exact ⟨#[], Array.append_empty.symm⟩
  | cons record records ih =>
    obtain ⟨-, added, -, hlater⟩ := ok_of_run_expandRecords_cons hrun
    obtain ⟨rest, rfl⟩ := ih hlater
    exact ⟨added ++ rest, Array.append_assoc⟩

/-- The record says where its symbol's contribution lies in the output: between
its two positions stands what the symbol contributes to the output before
them. -/
structure Record.Locates (record : Record) (stream output : Array α) : Prop where
  outputEnd_le : record.outputEnd ≤ output.size
  contribution_eq : record.symbol.contribution stream (output.extract 0 record.outputStart) =
    .ok (output.extract record.outputStart record.outputEnd)

theorem Record.locates_of_contribution {record : Record} {added rest : Array α}
    (hstart : record.outputStart = output.size)
    (hadded : record.symbol.contribution stream output = .ok added) :
    record.Locates stream (output ++ added ++ rest) := by
  have hend := outputEnd_eq_size hstart hadded
  have hbefore : (output ++ added ++ rest).extract 0 output.size = output := by
    rw [Array.append_assoc, Array.extract_append_left, Array.extract_size]
  have hbetween : (output ++ added ++ rest).extract output.size (output ++ added).size = added := by
    simp [Array.extract_append]
  constructor
  · simp only [hend, Array.size_append]
    omega
  · rw [hend, hstart, hbefore, hbetween, hadded]

/-- An expansion that succeeds bears out what each of its records says about the
output. -/
theorem locates_of_run_expandRecords {records : List Record}
    (hrun : (expandRecords stream records).run output = .ok () final) :
    ∀ record ∈ records, record.Locates stream final := by
  induction records generalizing output with
  | nil =>
    intro record hrecord
    cases hrecord
  | cons first records ih =>
    obtain ⟨hstart, added, hadded, hlater⟩ := ok_of_run_expandRecords_cons hrun
    -- Later records only add to the output, so what the first has put there stays.
    obtain ⟨rest, hfinal⟩ := exists_append_of_run_expandRecords hlater
    intro record hrecord
    rcases List.mem_cons.1 hrecord with rfl | hrecord
    · rw [hfinal]
      exact Record.locates_of_contribution hstart hadded
    · exact ih hlater record hrecord

end Run

/-- What is decoded from a stream can be expanded over it, whatever the stream
holds and however early the decoding ends. The output has the length that the
records cover, and each record locates its symbol's contribution there. -/
theorem decode_locates {stream : Bytes} (requested : Nat) {start : Nat} (hstart : start ≤ stream.size) :
    ∃ decoding output, decode stream requested start = .ok decoding ∧
      decoding.expand stream = .ok output ∧ output.size = decoding.producedLength ∧
      ∀ record ∈ decoding.records, record.Locates stream output := by
  have hopens := Element.opens_parse 0 requested (stream.toList.drop start)
  have hexpand := Decoding.expand_locate (hopens.continues start) hopens.sound hopens.encoded
  refine ⟨_, _, decode_eq_ok hstart, hexpand, ?_,
    locates_of_run_expandRecords (Decoding.expand_eq_ok_iff.1 hexpand)⟩
  have hempty : Element.Sound ([] : List UInt8).length _ := hopens.sound
  rw [Decoding.producedLength_locate, List.size_toArray, Element.length_expandAll hempty,
    List.length_nil, Nat.zero_add]

/-- A stray byte in front and a literal that is cut off at the end: the copy in
between is located behind the letter that it repeats. -/
theorem decode_locates_behind_stray_byte :
    1 ≤ (#[0xff, 0x00, 0x61, 0x26, 0x01, 0x00, 0x0c, 0x62] : Bytes).size ∧
      ∃ output : Bytes,
        decode #[0xff, 0x00, 0x61, 0x26, 0x01, 0x00, 0x0c, 0x62] 20 1 =
          .ok ⟨[⟨1, 2, 0, .literal 1 2⟩, ⟨3, 3, 1, .copy 10 1⟩], 20, by decide⟩ ∧
        output.size = 11 ∧
        Record.Locates ⟨3, 3, 1, .copy 10 1⟩ #[0xff, 0x00, 0x61, 0x26, 0x01, 0x00, 0x0c, 0x62]
          output := by
  have hstart : 1 ≤ (#[0xff, 0x00, 0x61, 0x26, 0x01, 0x00, 0x0c, 0x62] : Bytes).size := by decide
  have hfound : decode #[0xff, 0x00, 0x61, 0x26, 0x01, 0x00, 0x0c, 0x62] 20 1 =
      .ok ⟨[⟨1, 2, 0, .literal 1 2⟩, ⟨3, 3, 1, .copy 10 1⟩], 20, by decide⟩ := by cbv
  obtain ⟨decoding, output, hdecode, -, hsize, hlocates⟩ := decode_locates 20 hstart
  rw [hfound] at hdecode
  cases hdecode
  exact ⟨hstart, output, hfound, hsize, hlocates _ (List.mem_cons_of_mem _ List.mem_cons_self)⟩

end Snappy
