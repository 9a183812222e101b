import Snappy.Proofs.Checked.Symbol
import Snappy.Proofs.Decoding.Tiling

namespace Snappy.Checked

variable {stream : Bytes} {progress : Progress}

/-- The state of a loop that has not run into a fault leaves room for any symbol
that is not longer than what is wanted. -/
theorem fitsWords_of_inStep (hsize : stream.size < 2 ^ 63) (hcursor : progress.cursor ≤ stream.size)
    (hsum : progress.produced + progress.remaining < 2 ^ 64) : progress.FitsWords stream := by
  refine ⟨by omega, by omega, by omega, ?_⟩
  intro symbol next htaken
  obtain ⟨element, hfinds, htakes⟩ := Progress.next?_eq_some_iff.1 htaken
  have hlength := hfinds.allowed.length_le
  have hproduced := htakes.produced_eq
  omega

theorem inStep_ofProgress {requested : Nat} (hsize : stream.size < 2 ^ 63)
    (hrequested : requested < 2 ^ 64) (hcursor : progress.cursor ≤ stream.size)
    (hsum : progress.produced + progress.remaining = requested) :
    (State.ofProgress progress).InStep (.ofNat stream.size) (.ofNat requested) := by
  refine ⟨?_, (ofNat_le_ofNat_iff (by omega) (by omega)).2 hcursor⟩
  simp only [State.ofProgress]
  rw [toNat_ofNat (by omega), toNat_ofNat (by omega), toNat_ofNat hrequested, hsum]

theorem remaining_ofProgress_eq_zero_iff (hremaining : progress.remaining < 2 ^ 64) :
    (State.ofProgress progress).remaining = 0 ↔ progress.remaining = 0 :=
  ofNat_eq_zero_iff hremaining

/-- Behind an element that ends within the stream the cursor has moved on, and is
still within the stream. -/
theorem cursor_ofProgress_advance {element : Element} (hsize : stream.size < 2 ^ 63)
    (hwidth : 1 ≤ element.width) (hend : progress.cursor + element.width ≤ stream.size) :
    (State.ofProgress progress).cursor < (State.ofProgress (progress.advance element)).cursor ∧
      (State.ofProgress (progress.advance element)).cursor ≤ .ofNat stream.size := by
  simp only [State.ofProgress, Progress.advance]
  exact ⟨(ofNat_lt_ofNat_iff (by omega) (by omega)).2 (by omega),
    (ofNat_le_ofNat_iff (by omega) (by omega)).2 hend⟩

/-- The record that the loop writes down, once its parts are numbers again. -/
theorem record_ofProgress {element : Element} (hcursor : progress.cursor + element.width < 2 ^ 64)
    (hproduced : progress.produced < 2 ^ 64) :
    Record.mk (State.ofProgress progress).cursor.toNat
      ((State.ofProgress (progress.advance element)).cursor - (State.ofProgress progress).cursor).toNat
      (State.ofProgress progress).produced.toNat (element.symbolAt progress.cursor) =
        element.record progress.cursor progress.produced := by
  have hwidth : (UInt64.ofNat (progress.cursor + element.width) - .ofNat progress.cursor) =
      UInt64.ofNat element.width := by
    rw [← UInt64.ofNat_sub (by omega), Nat.add_sub_cancel_left]
  simp only [State.ofProgress, Progress.advance, hwidth]
  rw [toNat_ofNat (by omega), toNat_ofNat (by omega), toNat_ofNat hproduced]
  rfl

/-- One iteration of the loop. It is in step, runs into no fault, and either stops
or goes on behind the element that the walk takes next. -/
theorem walk_ofProgress {requested : Nat} (hsize : stream.size < 2 ^ 63) (hrequested : requested < 2 ^ 64)
    (hcursor : progress.cursor ≤ stream.size)
    (hsum : progress.produced + progress.remaining = requested) (hwanted : progress.remaining ≠ 0)
    (found : Array Record) :
    walk stream (.ofNat stream.size) (.ofNat requested) (.ofProgress progress) found =
      match progress.nextElement? (stream.toList.drop progress.cursor) with
      | none => .ok found
      | some (element, _) =>
        walk stream (.ofNat stream.size) (.ofNat requested) (.ofProgress (progress.advance element))
          (found.push (element.record progress.cursor progress.produced)) := by
  have hinStep := inStep_ofProgress hsize hrequested hcursor hsum
  have hwords := fitsWords_of_inStep hsize hcursor (by omega)
  have hnonzero := mt (remaining_ofProgress_eq_zero_iff hwords.remaining_lt).1 hwanted
  rw [walk, if_neg (not_not_intro hinStep), if_neg hnonzero, takeSymbol_eq_taken hsize hwords,
    State.taken, Progress.next?]
  cases hnext : progress.nextElement? (stream.toList.drop progress.cursor) with
  | none => rfl
  | some result =>
    obtain ⟨element, rest⟩ := result
    obtain ⟨hfinds, -⟩ := Progress.finds_of_nextElement? hnext
    have hwidth := hfinds.valid.two_le_width
    have hend := hfinds.end_le
    rw [Element.length_encode] at hend
    have hforward := cursor_ofProgress_advance hsize (by omega) hend
    have hrecord := record_ofProgress (by omega : progress.cursor + element.width < 2 ^ 64)
      hwords.produced_lt
    simp only [Option.map_some, dif_pos hforward, hrecord]

/-- The loop over machine words finds the records that the walk finds. -/
theorem walk_eq_ok {requested : Nat} (hsize : stream.size < 2 ^ 63) (hrequested : requested < 2 ^ 64)
    (hcursor : progress.cursor ≤ stream.size)
    (hsum : progress.produced + progress.remaining = requested) (found : Array Record) :
    walk stream (.ofNat stream.size) (.ofNat requested) (.ofProgress progress) found =
      .ok (Snappy.walk (stream.toList.drop progress.cursor) progress found) := by
  -- The walk goes on with what is behind the cursor, the loop with the cursor itself.
  generalize hinput : stream.toList.drop progress.cursor = input
  fun_induction Snappy.walk input progress found with
  | case1 input progress found hdone =>
    have hinStep := inStep_ofProgress hsize hrequested hcursor hsum
    have hzero := (remaining_ofProgress_eq_zero_iff (by omega)).2 hdone
    rw [walk, if_neg (not_not_intro hinStep), if_pos hzero]
  | case2 input progress found hwanted hstop =>
    rw [walk_ofProgress hsize hrequested hcursor hsum hwanted, hinput, hstop]
  | case3 input progress found hwanted element rest hnext ih =>
    rw [walk_ofProgress hsize hrequested hcursor hsum hwanted, hinput, hnext]
    rw [← hinput] at hnext
    obtain ⟨hfinds, hbehind⟩ := Progress.finds_of_nextElement? hnext
    have hlength := hfinds.allowed.length_le
    have hend := hfinds.end_le
    rw [Element.length_encode] at hend
    exact ih hend (by simp only [Progress.advance]; omega) hbehind

/-- Decoding in machine words returns what decoding returns, the error for a start
beyond the stream included. -/
theorem decode_eq_ok {requested start : Nat} (hsize : stream.size < 2 ^ 63)
    (hrequested : requested < 2 ^ 64) (hstart : start < 2 ^ 64) :
    decode stream (.ofNat requested) (.ofNat start) = .ok (Snappy.decode stream requested start) := by
  have hbeyond := ofNat_lt_ofNat_iff (a := stream.size) (by omega) hstart
  rw [decode, Snappy.decode]
  by_cases hwithin : start ≤ stream.size
  · have hstate : State.mk (.ofNat start) (.ofNat requested) 0 = .ofProgress ⟨start, requested, 0⟩ := rfl
    have hwalk : walk stream (.ofNat stream.size) (.ofNat requested)
        (.ofProgress ⟨start, requested, 0⟩) #[] =
          .ok (Snappy.walk (stream.toList.drop start) ⟨start, requested, 0⟩ #[]) :=
      walk_eq_ok hsize hrequested hwithin (Nat.zero_add requested) #[]
    simp only [if_neg (mt hbeyond.1 (by omega)), if_pos hwithin, hstate, hwalk, ok_bind,
      toNat_ofNat hrequested, dif_pos (continues_walk _ requested start)]
    rfl
  · rw [if_pos (hbeyond.2 (by omega)), if_neg hwithin]
    rfl

end Snappy.Checked

namespace Snappy

/-- Decoding in words of 64 bits succeeds from every start within the stream. No
sum, difference or look-up in it is a fault, and the loop is in step at each of
its iterations, whatever the stream announces and however much is requested. What
it finds is what decoding finds, and tiles the stream and the output. -/
theorem decode_faultless {stream : Bytes} (hsize : stream.size < 2 ^ 63) (requested start : UInt64)
    (hstart : start.toNat ≤ stream.size) :
    ∃ decoding, Checked.decode stream requested start = .ok (.ok decoding) ∧
      decode stream requested.toNat start.toNat = .ok decoding ∧
      Tiles stream.size start.toNat 0 decoding.records ∧
      decoding.producedLength = (decoding.records.map fun record => record.symbol.length).sum ∧
      decoding.producedLength ≤ requested.toNat := by
  obtain ⟨decoding, hdecode⟩ : ∃ decoding, decode stream requested.toNat start.toNat = .ok decoding :=
    ⟨_, decode_eq_ok hstart⟩
  have hwords := Checked.decode_eq_ok hsize requested.toNat_lt start.toNat_lt
  rw [UInt64.ofNat_toNat, UInt64.ofNat_toNat, hdecode] at hwords
  exact ⟨decoding, hwords, hdecode, tiles_of_decode hdecode⟩

/-- All that a word can hold is requested, and the last literal announces a
payload of 4 GiB where one byte follows. -/
theorem decode_faultless_of_announced_payload :
    (#[0xff, 0x00, 0x61, 0x26, 0x01, 0x00, 0xfc, 0xff, 0xff, 0xff, 0xff, 0x62] : Bytes).size < 2 ^ 63 ∧
      (1 : UInt64).toNat ≤
        (#[0xff, 0x00, 0x61, 0x26, 0x01, 0x00, 0xfc, 0xff, 0xff, 0xff, 0xff, 0x62] : Bytes).size ∧
      Checked.decode #[0xff, 0x00, 0x61, 0x26, 0x01, 0x00, 0xfc, 0xff, 0xff, 0xff, 0xff, 0x62]
          0xffffffffffffffff 1 =
        .ok (.ok ⟨[⟨1, 2, 0, .literal 1 2⟩, ⟨3, 3, 1, .copy 10 1⟩], 0xffffffffffffffff, by decide⟩) ∧
      Tiles 12 1 0 [⟨1, 2, 0, .literal 1 2⟩, ⟨3, 3, 1, .copy 10 1⟩] := by
  have hsize : (#[0xff, 0x00, 0x61, 0x26, 0x01, 0x00, 0xfc, 0xff, 0xff, 0xff, 0xff, 0x62] : Bytes).size <
      2 ^ 63 := by decide
  have hstart : (1 : UInt64).toNat ≤
      (#[0xff, 0x00, 0x61, 0x26, 0x01, 0x00, 0xfc, 0xff, 0xff, 0xff, 0xff, 0x62] : Bytes).size := by
    decide
  have hfound : decode #[0xff, 0x00, 0x61, 0x26, 0x01, 0x00, 0xfc, 0xff, 0xff, 0xff, 0xff, 0x62]
      0xffffffffffffffff 1 =
        .ok ⟨[⟨1, 2, 0, .literal 1 2⟩, ⟨3, 3, 1, .copy 10 1⟩], 0xffffffffffffffff, by decide⟩ := by cbv
  obtain ⟨decoding, hwords, hdecode, htiles, -, -⟩ := decode_faultless hsize 0xffffffffffffffff 1 hstart
  have hsame := hfound.symm.trans hdecode
  cases hsame
  exact ⟨hsize, hstart, hwords, htiles⟩

end Snappy
