import Snappy.Proofs.Decoding.Restriction

namespace Snappy

/-- A parse of the bytes up to `stop` finds the elements that end there or
before. -/
theorem locate_parse_take {cursor stop : Nat} (hcursor : cursor ≤ stop) (produced budget : Nat)
    (input : List UInt8) :
    locate cursor produced (Element.parse produced budget (input.take (stop - cursor))) =
      (locate cursor produced (Element.parse produced budget input)).takeWhile
        (·.cursorEnd ≤ stop) := by
  apply locate_parse_eq_takeWhile
  intro elements
  simp only [decide_eq_true_eq, forall_cursorEnd_le_iff produced elements hcursor]
  rw [Element.opens_take_iff, Nat.le_sub_iff_add_le hcursor, Nat.add_comm]

/-- A parse with the smaller of two budgets finds the elements that end within
that budget. -/
theorem locate_parse_of_le {few many : Nat} (hle : few ≤ many) (cursor produced : Nat)
    (input : List UInt8) :
    locate cursor produced (Element.parse produced few input) =
      (locate cursor produced (Element.parse produced many input)).takeWhile
        (·.outputEnd ≤ produced + few) := by
  apply locate_parse_eq_takeWhile
  intro elements
  simp only [decide_eq_true_eq, forall_outputEnd_le_iff cursor elements (Nat.le_add_right produced few)]
  rw [Element.opens_iff_of_le hle, Nat.add_le_add_iff_left]

/-- A decoding is complete if nothing was requested or if one of its records ends
where the request does. -/
theorem Decoding.isComplete_iff {requested start : Nat} {input : List UInt8}
    {elements : List Element} (hopens : Element.Opens 0 requested input elements) :
    (Decoding.mk (locate start 0 elements) requested (hopens.continues start)).isComplete = true ↔
      requested = 0 ∨ ∃ record ∈ locate start 0 elements, record.outputEnd = requested := by
  have hlength := hopens.length_le
  rw [isComplete_locate_iff]
  constructor
  · intro htotal
    have hend := outputEnd_getLast?_locate start 0 elements
    rw [Nat.zero_add, htotal] at hend
    cases hlast : (locate start 0 elements).getLast? with
    | none =>
      rw [hlast] at hend
      exact .inl hend.symm
    | some record =>
      rw [hlast] at hend
      exact .inr ⟨record, List.mem_of_getLast? hlast, hend⟩
  · rintro (rfl | ⟨record, hrecord, hend⟩)
    · omega
    · have hbound := (forall_outputEnd_le_iff start elements (Nat.zero_le _)).2 (Nat.le_refl _)
      have hle := hbound record hrecord
      omega

/-- Of a stream that is cut off, exactly those records are found that end before
the cut. So bytes that are added to a stream take no record away and change none,
and once a decoding is complete they add none either. -/
theorem decode_truncated {stream : Bytes} (requested : Nat) {start : Nat}
    (hstart : start ≤ stream.size) :
    ∃ decoding, decode stream requested start = .ok decoding ∧
      (∀ stop, start ≤ stop → stop ≤ stream.size →
        ∃ front, decode (stream.extract 0 stop) requested start = .ok front ∧
          front.records = decoding.records.filter (·.cursorEnd ≤ stop) ∧
          front.records <+: decoding.records) ∧
      ∀ suffix : Bytes, ∃ longer, decode (stream ++ suffix) requested start = .ok longer ∧
        decoding.records <+: longer.records ∧ (decoding.isComplete = true → longer = decoding) := by
  refine ⟨_, decode_eq_ok hstart, ?_, ?_⟩
  · intro stop hlow hhigh
    have hinput : (stream.extract 0 stop).toList.drop start =
        (stream.toList.drop start).take (stop - start) := by
      rw [Array.toList_extract, List.extract_eq_take_drop, List.drop_zero, Nat.sub_zero, List.drop_take]
    have hcut : start ≤ (stream.extract 0 stop).size := by
      rw [Array.size_extract]
      omega
    have hrecords := locate_parse_take hlow 0 requested (stream.toList.drop start)
    rw [← hinput] at hrecords
    refine ⟨_, decode_eq_ok hcut, hrecords.trans (filter_eq_takeWhile stop ?_).symm, ?_⟩
    · exact (pairwise_locate start 0 _).imp And.left
    · dsimp only
      rw [hrecords]
      exact List.takeWhile_prefix _
  · intro suffix
    have hlonger : start ≤ (stream ++ suffix).size := by
      rw [Array.size_append]
      omega
    have hinput : stream.toList.drop start <+: (stream ++ suffix).toList.drop start := by
      rw [Array.toList_append, List.drop_append_of_le_length (by simpa using hstart)]
      exact List.prefix_append _ _
    -- What opens the stream opens the longer one, whose parse may only go on behind it.
    have hopens := (Element.opens_parse 0 requested (stream.toList.drop start)).extend hinput
    refine ⟨_, decode_eq_ok hlonger, ?_, ?_⟩
    · obtain ⟨back, hback⟩ := hopens.isPrefix_parse
      dsimp only
      rw [← hback, locate_append]
      exact List.prefix_append _ _
    · intro hcomplete
      simp only [hopens.parse_eq (Decoding.isComplete_locate_iff.1 hcomplete)]

/-- A letter and a copy of it behind a stray byte. A cut within the copy loses it,
and a letter behind it is not looked at. -/
theorem decode_truncated_within_copy :
    1 ≤ (#[0xff, 0x00, 0x61, 0x26, 0x01, 0x00] : Bytes).size ∧
      decode #[0xff, 0x00, 0x61, 0x26, 0x01, 0x00] 11 1 =
        .ok ⟨[⟨1, 2, 0, .literal 1 2⟩, ⟨3, 3, 1, .copy 10 1⟩], 11, by decide⟩ ∧
      (∃ front, decode (#[0xff, 0x00, 0x61, 0x26, 0x01, 0x00].extract 0 5) 11 1 = .ok front ∧
        front.records = [⟨1, 2, 0, .literal 1 2⟩]) ∧
      decode (#[0xff, 0x00, 0x61, 0x26, 0x01, 0x00] ++ #[0x00, 0x62]) 11 1 =
        .ok ⟨[⟨1, 2, 0, .literal 1 2⟩, ⟨3, 3, 1, .copy 10 1⟩], 11, by decide⟩ := by
  have hstart : 1 ≤ (#[0xff, 0x00, 0x61, 0x26, 0x01, 0x00] : Bytes).size := by decide
  have hfound : decode #[0xff, 0x00, 0x61, 0x26, 0x01, 0x00] 11 1 =
      .ok ⟨[⟨1, 2, 0, .literal 1 2⟩, ⟨3, 3, 1, .copy 10 1⟩], 11, by decide⟩ := by cbv
  obtain ⟨decoding, hdecode, hcut, hlonger⟩ := decode_truncated 11 hstart
  rw [hfound] at hdecode
  cases hdecode
  obtain ⟨front, hfront, hrecords, -⟩ := hcut 5 (by decide) (by decide)
  obtain ⟨longer, hdecode, -, hsame⟩ := hlonger #[0x00, 0x62]
  rw [hsame rfl] at hdecode
  exact ⟨hstart, hfound, ⟨front, hfront, hrecords⟩, hdecode⟩

/-- Where less is requested, exactly those records are found that end within the
request. It is covered if it asks for nothing or for as much as some of the
records that are found for the larger request cover. -/
theorem decode_of_smaller_request {stream : Bytes} {start few many : Nat}
    (hstart : start ≤ stream.size) (hle : few ≤ many) :
    ∃ less more, decode stream few start = .ok less ∧ decode stream many start = .ok more ∧
      less.records = more.records.filter (·.outputEnd ≤ few) ∧ less.records <+: more.records ∧
      (less.isComplete = true ↔ few = 0 ∨ ∃ record ∈ more.records, record.outputEnd = few) := by
  have hrecords := locate_parse_of_le hle start 0 (stream.toList.drop start)
  rw [Nat.zero_add] at hrecords
  have hordered := pairwise_locate start 0 (Element.parse 0 many (stream.toList.drop start))
  have hfilter := hrecords.trans (filter_eq_takeWhile few (hordered.imp And.right)).symm
  refine ⟨_, _, decode_eq_ok hstart, decode_eq_ok hstart, hfilter, ?_, ?_⟩
  · dsimp only
    rw [hrecords]
    exact List.takeWhile_prefix _
  · rw [Decoding.isComplete_iff (Element.opens_parse 0 few _), hfilter]
    apply or_congr_right
    constructor
    · rintro ⟨record, hrecord, hend⟩
      exact ⟨record, (List.mem_filter.1 hrecord).1, hend⟩
    · rintro ⟨record, hrecord, hend⟩
      have hwithin : record.outputEnd ≤ few := Nat.le_of_eq hend
      exact ⟨record, List.mem_filter.2 ⟨hrecord, decide_eq_true hwithin⟩, hend⟩

/-- A letter and a copy that repeats it ten times. Five bytes end within the copy
and are not covered; one byte is. -/
theorem decode_of_smaller_request_within_copy :
    1 ≤ (#[0xff, 0x00, 0x61, 0x26, 0x01, 0x00] : Bytes).size ∧
      decode #[0xff, 0x00, 0x61, 0x26, 0x01, 0x00] 11 1 =
        .ok ⟨[⟨1, 2, 0, .literal 1 2⟩, ⟨3, 3, 1, .copy 10 1⟩], 11, by decide⟩ ∧
      (5 ≤ 11 ∧ ∃ less, decode #[0xff, 0x00, 0x61, 0x26, 0x01, 0x00] 5 1 = .ok less ∧
        less.records = [⟨1, 2, 0, .literal 1 2⟩] ∧ ¬ less.isComplete = true) ∧
      (1 ≤ 11 ∧ ∃ less, decode #[0xff, 0x00, 0x61, 0x26, 0x01, 0x00] 1 1 = .ok less ∧
        less.records = [⟨1, 2, 0, .literal 1 2⟩] ∧ less.isComplete = true) := by
  have hstart : 1 ≤ (#[0xff, 0x00, 0x61, 0x26, 0x01, 0x00] : Bytes).size := by decide
  have hfive : 5 ≤ 11 := by decide
  have hone : 1 ≤ 11 := by decide
  have hfound : decode #[0xff, 0x00, 0x61, 0x26, 0x01, 0x00] 11 1 =
      .ok ⟨[⟨1, 2, 0, .literal 1 2⟩, ⟨3, 3, 1, .copy 10 1⟩], 11, by decide⟩ := by cbv
  obtain ⟨five, more, hdecode, hmore, hrecords, -, hcomplete⟩ :=
    decode_of_smaller_request hstart hfive
  obtain ⟨one, more', hdecode', hmore', hrecords', -, hcomplete'⟩ :=
    decode_of_smaller_request hstart hone
  rw [hfound] at hmore hmore'
  cases hmore
  cases hmore'
  exact ⟨hstart, hfound, ⟨hfive, five, hdecode, hrecords, mt hcomplete.1 (by decide)⟩,
    ⟨hone, one, hdecode', hrecords', hcomplete'.2 (by decide)⟩⟩

end Snappy
