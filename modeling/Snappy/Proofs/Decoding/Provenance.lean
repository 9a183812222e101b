import Snappy.Decoding.Provenance
import Snappy.Proofs.Decoding.Expansion
import Snappy.Proofs.Decoding.Records

namespace Snappy

theorem Symbol.size_appendSources {symbol : Symbol} {sources : Array Nat}
    (hreaches : symbol.Reaches sources.size) :
    (symbol.appendSources sources).size = sources.size + symbol.length := by
  cases symbol with
  | literal length start => rw [appendSources, Array.size_append, Array.size_range', Symbol.length]
  | copy length offset =>
    have hoffset : 1 ≤ offset ∧ offset ≤ sources.size := hreaches
    rw [appendSources, size_appendCopy hoffset, Symbol.length]

theorem Continues.size_sourcesAfter {limit : Nat} {records : List Record} {sources : Array Nat}
    (hcontinues : Continues limit sources.size records) :
    (sourcesAfter sources records).size =
      sources.size + (records.map fun record => record.symbol.length).sum := by
  induction records generalizing sources with
  | nil => simp
  | cons record records ih =>
    obtain ⟨hstart, hreaches, -, -, hrest⟩ := hcontinues
    rw [Record.outputEnd, hstart, ← Symbol.size_appendSources hreaches] at hrest
    rw [sourcesAfter_cons, ih hrest, Symbol.size_appendSources hreaches, List.map_cons,
      List.sum_cons, Nat.add_assoc]

theorem Symbol.mem_appendSources {symbol : Symbol} {sources : Array Nat} {source : Nat}
    (hsource : source ∈ symbol.appendSources sources) : source ∈ sources ∨ symbol.Spans source := by
  cases symbol with
  | literal length start =>
    rcases Array.mem_append.1 hsource with hbefore | hpayload
    · exact .inl hbefore
    · exact .inr (Array.mem_range'_1.1 hpayload)
  | copy length offset => exact .inl (mem_of_mem_appendCopy hsource)

/-- No source is invented: it was there before, or a literal spans it. -/
theorem mem_sourcesAfter {records : List Record} {sources : Array Nat} {source : Nat}
    (hsource : source ∈ sourcesAfter sources records) :
    source ∈ sources ∨ ∃ record ∈ records, record.symbol.Spans source := by
  induction records generalizing sources with
  | nil => exact .inl hsource
  | cons record records ih =>
    rcases ih hsource with hfirst | ⟨later, hlater, hspans⟩
    · rcases Symbol.mem_appendSources hfirst with hbefore | hspans
      · exact .inl hbefore
      · exact .inr ⟨record, List.mem_cons_self, hspans⟩
    · exact .inr ⟨later, List.mem_cons_of_mem record hlater, hspans⟩

section Stream

variable {α : Type} {stream output : Array α} {sources : Array Nat}

/-- The output consists of the items that the stream holds at the sources. -/
def Traces (stream output : Array α) (sources : Array Nat) : Prop :=
  output.map some = sources.map fun source => stream[source]?

/-- Streams that hold the same items at the sources give the same output. -/
theorem Traces.eq_of_agree {other output' : Array α} (htraces : Traces stream output sources)
    (htraces' : Traces other output' sources)
    (hagree : ∀ source ∈ sources, stream[source]? = other[source]?) : output = output' := by
  have hitems : output.map some = output'.map some := by
    calc output.map some
        = sources.map fun source => stream[source]? := htraces
      _ = sources.map fun source => other[source]? := Array.map_inj_left.2 hagree
      _ = output'.map some := htraces'.symm
  exact (Array.map_inj_right fun _ _ => Option.some.inj).1 hitems

theorem Traces.map {β : Type} (f : α → β) (htraces : Traces stream output sources) :
    Traces (stream.map f) (output.map f) sources := by
  have hitems := congrArg (Array.map (Option.map f)) htraces
  rw [Array.map_map, Array.map_map] at hitems
  rw [Traces, Array.map_map]
  simpa [Function.comp_def] using hitems

theorem traces_payload {start length : Nat} (hfits : start + length ≤ stream.size) :
    Traces stream (stream.extract start (start + length)) (Array.range' start length) := by
  apply Array.ext
  · simp only [Array.size_map, Array.size_extract, Array.size_range']
    omega
  · intro i hi hi'
    simp

theorem Traces.append {added : Array α} {fresh : Array Nat} (htraces : Traces stream output sources)
    (hadded : Traces stream added fresh) : Traces stream (output ++ added) (sources ++ fresh) := by
  rw [Traces, Array.map_append, Array.map_append, htraces, hadded]

theorem Traces.copy (offset length : Nat) (htraces : Traces stream output sources) :
    Traces stream (appendCopy offset length output) (appendCopy offset length sources) := by
  -- The same copy is made on both sides, once of items and once of their positions.
  rw [Traces, ← appendCopy_map, ← appendCopy_map, htraces]

/-- Output that a symbol adds comes from the sources that the symbol adds. -/
theorem Traces.append_contribution {symbol : Symbol} (htraces : Traces stream output sources)
    (hfits : symbol.FitsIn stream.size) (hreaches : symbol.Reaches output.size) :
    ∃ added, symbol.contribution stream output = .ok added ∧
      Traces stream (output ++ added) (symbol.appendSources sources) := by
  cases symbol with
  | literal length start =>
    exact ⟨_, Symbol.contribution_literal output hfits, htraces.append (traces_payload hfits)⟩
  | copy length offset =>
    have hoffset : 1 ≤ offset ∧ offset ≤ output.size := hreaches
    refine ⟨periodicWindow output length offset hoffset, dif_pos hoffset, ?_⟩
    rw [← appendCopy_eq_append_periodicWindow hoffset]
    exact htraces.copy offset length

/-- Records that go on from the output add to it what comes from their sources,
over any stream that holds their literals. -/
theorem Traces.run_expandRecords {limit : Nat} {records : List Record}
    (htraces : Traces stream output sources) (hcontinues : Continues limit output.size records)
    (hfits : ∀ record ∈ records, record.symbol.FitsIn stream.size) :
    ∃ final, (expandRecords stream records).run output = .ok () final ∧
      Traces stream final (sourcesAfter sources records) := by
  -- What a step keeps is both that the output comes from the sources and that the
  -- next record begins at its end.
  induction records generalizing output sources with
  | nil => exact ⟨output, rfl, htraces⟩
  | cons record records ih =>
    obtain ⟨hstart, hreaches, -, -, hrest⟩ := hcontinues
    obtain ⟨hfirst, hothers⟩ := List.forall_mem_cons.1 hfits
    obtain ⟨added, hadded, hlonger⟩ := htraces.append_contribution hfirst hreaches
    rw [Record.outputEnd_eq_size hstart hadded] at hrest
    obtain ⟨final, hrun, hfinal⟩ := ih hlonger hrest hothers
    refine ⟨final, ?_, hfinal⟩
    rw [run_expandRecords_cons_of_ok hstart hadded, hrun]

/-- Records that go on from the output fail for no other reason than that the
stream does not hold one of their literals. -/
theorem run_expandRecords_beyond {limit : Nat} {records : List Record}
    (hcontinues : Continues limit output.size records)
    (hbeyond : ¬ ∀ record ∈ records, record.symbol.FitsIn stream.size) :
    ∃ front, (expandRecords stream records).run output = .error .literalBeyondStream front := by
  induction records generalizing output with
  | nil => exact absurd (fun record hrecord => nomatch hrecord) hbeyond
  | cons record records ih =>
    obtain ⟨hstart, hreaches, -, -, hrest⟩ := hcontinues
    by_cases hfirst : record.symbol.FitsIn stream.size
    · obtain ⟨added, hadded⟩ := Symbol.exists_contribution hfirst hreaches
      rw [Record.outputEnd_eq_size hstart hadded] at hrest
      rw [run_expandRecords_cons_of_ok hstart hadded]
      apply ih hrest
      intro hothers
      exact hbeyond (List.forall_mem_cons.2 ⟨hfirst, hothers⟩)
    · have herror := Symbol.contribution_eq_beyond output hfirst
      exact ⟨output, run_expandRecords_cons_of_error hstart herror⟩

/-- Whether a stream holds a literal shows at the last position of the payload,
if there is one. -/
theorem Symbol.fitsIn_iff_of_agree {other : Array α} {symbol : Symbol} (hlength : 1 ≤ symbol.length)
    (hagree : ∀ position, symbol.Spans position → stream[position]? = other[position]?) :
    symbol.FitsIn stream.size ↔ symbol.FitsIn other.size := by
  cases symbol with
  | literal length start =>
    simp only [Symbol.length] at hlength
    have hlast := hagree (start + length - 1) ⟨by omega, by omega⟩
    have hends : stream.size ≤ start + length - 1 ↔ other.size ≤ start + length - 1 := by
      rw [← Array.getElem?_eq_none_iff, hlast, Array.getElem?_eq_none_iff]
    simp only [FitsIn]
    omega
  | copy length offset => exact Iff.rfl

end Stream

namespace Decoding

variable {α : Type} {decoding : Decoding} {stream other : Array α}

theorem exists_spans_of_mem_sources {source : Nat} (hsource : source ∈ decoding.sources) :
    ∃ record ∈ decoding.records, record.symbol.Spans source := by
  rcases mem_sourcesAfter hsource with hnone | hspans
  · exact absurd hnone (Array.not_mem_empty source)
  · exact hspans

/-- The output over a stream that holds the literals is made up of the items at
the sources. -/
theorem exists_expand_of_fitsIn (hfits : decoding.FitsIn stream.size) :
    ∃ output, decoding.expand stream = .ok output ∧ Traces stream output decoding.sources := by
  have hempty : Traces stream #[] #[] := by rw [Traces, Array.map_empty, Array.map_empty]
  obtain ⟨output, hrun, htraces⟩ := hempty.run_expandRecords decoding.continues hfits
  exact ⟨output, expand_eq_ok_iff.2 hrun, htraces⟩

theorem expand_eq_beyond (hbeyond : ¬ decoding.FitsIn stream.size) :
    decoding.expand stream = .error .literalBeyondStream := by
  have hempty : Continues decoding.requested (#[] : Array α).size decoding.records := decoding.continues
  obtain ⟨front, hrun⟩ := run_expandRecords_beyond hempty hbeyond
  rw [expand, hrun]

/-- Mapping the items of the stream maps those of the output. -/
theorem expand_map {β : Type} (f : α → β) (stream : Array α) :
    decoding.expand (stream.map f) = (decoding.expand stream).map (Array.map f) := by
  by_cases hfits : decoding.FitsIn stream.size
  · have hmapped : decoding.FitsIn (stream.map f).size := by rwa [Array.size_map]
    obtain ⟨output, hexpand, htraces⟩ := exists_expand_of_fitsIn hfits
    obtain ⟨output', hexpand', htraces'⟩ := exists_expand_of_fitsIn hmapped
    rw [hexpand, hexpand', htraces'.eq_of_agree (htraces.map f) fun _ _ => rfl]
    rfl
  · have hmapped : ¬ decoding.FitsIn (stream.map f).size := by rwa [Array.size_map]
    rw [expand_eq_beyond hfits, expand_eq_beyond hmapped]
    rfl

/-- Streams that agree wherever a literal takes its payload are not told apart,
not even by whether they hold the payload. -/
theorem expand_eq_of_agree
    (hlength : ∀ record ∈ decoding.records, 1 ≤ record.symbol.length)
    (hagree : ∀ record ∈ decoding.records, ∀ position, record.symbol.Spans position →
      stream[position]? = other[position]?) :
    decoding.expand stream = decoding.expand other := by
  have hfits_iff : decoding.FitsIn stream.size ↔ decoding.FitsIn other.size :=
    forall₂_congr fun record hrecord =>
      Symbol.fitsIn_iff_of_agree (hlength record hrecord) (hagree record hrecord)
  by_cases hfits : decoding.FitsIn stream.size
  · obtain ⟨output, hexpand, htraces⟩ := exists_expand_of_fitsIn hfits
    obtain ⟨output', hexpand', htraces'⟩ := exists_expand_of_fitsIn (hfits_iff.1 hfits)
    have hsources : ∀ source ∈ decoding.sources, stream[source]? = other[source]? := by
      intro source hsource
      obtain ⟨record, hrecord, hspans⟩ := exists_spans_of_mem_sources hsource
      exact hagree record hrecord source hspans
    rw [hexpand, hexpand', htraces.eq_of_agree htraces' hsources]
  · rw [expand_eq_beyond hfits, expand_eq_beyond (mt hfits_iff.2 hfits)]

end Decoding

/-- Where each byte of the output comes from is settled by the decoding alone:
from a position that a literal spans. Whatever stream the decoding is then
expanded over, the output is made up of the bytes at these positions, or the
stream does not hold all literals, and nothing else goes wrong. So streams that
agree on the literals give the same output, and a function mapped over the
stream is mapped over the output. -/
theorem decode_provenance {stream : Bytes} {requested start : Nat} {decoding : Decoding}
    (hdecode : decode stream requested start = .ok decoding) :
    decoding.sources.size = decoding.producedLength ∧
      (∀ source ∈ decoding.sources, ∃ record ∈ decoding.records, record.symbol.Spans source) ∧
      (∀ other : Bytes, decoding.FitsIn other.size → ∃ output, decoding.expand other = .ok output ∧
        output.map some = decoding.sources.map fun source => other[source]?) ∧
      (∀ other : Bytes, ¬ decoding.FitsIn other.size →
        (decoding.expand other).mapError Error.message =
          .error "snappy: literal exceeds compressed stream") ∧
      (∀ other another : Bytes, (∀ record ∈ decoding.records, ∀ position,
          record.symbol.Spans position → other[position]? = another[position]?) →
        decoding.expand other = decoding.expand another) ∧
      (∀ (f : UInt8 → UInt8) (other : Bytes),
        decoding.expand (other.map f) = (decoding.expand other).map (Array.map f)) := by
  obtain ⟨-, elements, hopens, rfl⟩ := opens_of_decode hdecode
  refine ⟨?_, fun source hsource => Decoding.exists_spans_of_mem_sources hsource,
    fun other hfits => Decoding.exists_expand_of_fitsIn hfits, ?_, ?_,
    fun f other => Decoding.expand_map f other⟩
  · have hempty : Continues requested (#[] : Array Nat).size (locate start 0 elements) :=
      hopens.continues start
    rw [Decoding.sources, hempty.size_sourcesAfter, map_length_locate,
      Decoding.producedLength_locate]
    exact Nat.zero_add _
  · intro other hbeyond
    rw [Decoding.expand_eq_beyond hbeyond]
    rfl
  · intro other another hagree
    exact Decoding.expand_eq_of_agree (one_le_length_of_mem_locate hopens.sound) hagree

/-- Two letters, a copy that goes over them more than twice, a copy out of that
copy, and one more letter. Over a stream that counts its positions the output
shows the sources; a stream one byte shorter does not hold the last letter. -/
theorem decode_provenance_of_copied_copy :
    ∃ decoding,
      decode #[0x04, 0x61, 0x62, 0x05, 0x02, 0x0a, 0x04, 0x00, 0x00, 0x63] 11 0 = .ok decoding ∧
        decoding.sources = #[1, 2, 1, 2, 1, 2, 1, 2, 1, 2, 9] ∧
        (∃ output, decoding.expand #[0, 1, 2, 3, 4, 5, 6, 7, 8, 9] = .ok output ∧
          output.map some = #[some 1, some 2, some 1, some 2, some 1, some 2, some 1, some 2,
            some 1, some 2, some (9 : UInt8)]) ∧
        (decoding.expand (#[0, 1, 2, 3, 4, 5, 6, 7, 8] : Bytes)).mapError Error.message =
          .error "snappy: literal exceeds compressed stream" := by
  have hdecode : decode #[0x04, 0x61, 0x62, 0x05, 0x02, 0x0a, 0x04, 0x00, 0x00, 0x63] 11 0 =
      .ok ⟨[⟨0, 3, 0, .literal 2 1⟩, ⟨3, 2, 2, .copy 5 2⟩, ⟨5, 3, 7, .copy 3 4⟩,
        ⟨8, 2, 10, .literal 1 9⟩], 11, by decide⟩ := by cbv
  obtain ⟨-, -, hfits, hbeyond, -, -⟩ := decode_provenance hdecode
  obtain ⟨output, hexpand, hsources⟩ := hfits #[0, 1, 2, 3, 4, 5, 6, 7, 8, 9] (by decide)
  exact ⟨_, hdecode, rfl, ⟨output, hexpand, hsources.trans (by cbv)⟩,
    hbeyond #[0, 1, 2, 3, 4, 5, 6, 7, 8] (by decide)⟩

end Snappy
