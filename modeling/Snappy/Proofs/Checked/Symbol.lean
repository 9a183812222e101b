import Snappy.Proofs.Checked.Opening
import Snappy.Proofs.Decoding.NextSymbol

namespace Snappy

namespace Progress

variable {stream : Bytes} {progress : Progress} {tag : UInt8} {fields rest : List UInt8}

theorem next?_eq_none_of_no_tag (hinput : stream.toList.drop progress.cursor = []) :
    progress.next? stream = none := by
  rw [next?, nextElement?, hinput]
  rfl

theorem next?_eq_none_of_short (hinput : stream.toList.drop progress.cursor = tag :: rest)
    (hshort : rest.length < Tag.fieldWidth tag) : progress.next? stream = none := by
  rw [next?, nextElement?, hinput, Element.read?_cons, splitAt?_eq_ite, if_neg (by omega)]
  rfl

/-- A literal is taken unless it is longer than what is wanted or than what is
left of the stream behind its opening. -/
theorem next?_literal (hinput : stream.toList.drop progress.cursor = tag :: (fields ++ rest))
    (hfields : fields.length = Tag.fieldWidth tag) (hkind : Tag.kind tag = .literal) {length : Nat}
    (hlength : Element.announcedLength tag fields = length) :
    progress.next? stream =
      if length ≤ progress.remaining ∧ length ≤ rest.length then
        some (.literal length (progress.cursor + Tag.width tag),
          ⟨progress.cursor + (Tag.width tag + length), progress.remaining - length,
            progress.produced + length⟩)
      else none := by
  have hread : Element.read? (tag :: (fields ++ rest)) =
      (splitAt? length rest).bind fun found => some (.literal fields.length found.1, found.2) := by
    rw [Element.read?_cons, splitAt?_eq_some_iff.2 ⟨hfields, rfl⟩, Option.bind_some, hkind]
    simp only [hlength]
  by_cases hpayload : length ≤ rest.length
  · have htaken : (rest.take length).length = length := List.length_take_of_le hpayload
    rw [splitAt?_eq_ite, if_pos hpayload, Option.bind_some, ← hinput] at hread
    rw [next?_eq_ite_of_read? hread]
    refine if_congr ?_ ?_ rfl
    · simp only [Admits, Element.Reaches, Element.length, htaken, and_true, hpayload]
    · simp only [Element.symbolAt, advance, Element.width, Element.length, htaken, hfields, Tag.width,
        Nat.add_assoc]
  · rw [splitAt?_eq_ite, if_neg hpayload, Option.bind_none] at hread
    rw [next?, nextElement?, hinput, hread, if_neg fun htaken => hpayload htaken.2]
    rfl

/-- A copy is taken unless it is longer than what is wanted or reaches for output
that there is not. -/
theorem next?_copy {form : CopyForm} {length offset : Nat}
    (hinput : stream.toList.drop progress.cursor = tag :: (fields ++ rest))
    (hfields : fields.length = Tag.fieldWidth tag) (hkind : Tag.kind tag = form.kind)
    (hcopy : Element.announcedCopy form tag fields = .copy form length offset) :
    progress.next? stream =
      if length ≤ progress.remaining ∧ 1 ≤ offset ∧ offset ≤ progress.produced then
        some (.copy length offset,
          ⟨progress.cursor + Tag.width tag, progress.remaining - length, progress.produced + length⟩)
      else none := by
  have hread : Element.read? (tag :: (fields ++ rest)) = some (.copy form length offset, rest) := by
    rw [Element.read?_cons, splitAt?_eq_some_iff.2 ⟨hfields, rfl⟩, Option.bind_some, hkind]
    cases form <;> exact congrArg some (Prod.ext hcopy rfl)
  have hwidth : (Element.copy form length offset).width = Tag.width tag := by
    rw [Element.width, Tag.width, Tag.fieldWidth, hkind]
    cases form <;> rfl
  rw [← hinput] at hread
  rw [next?_eq_ite_of_read? hread, advance, hwidth]
  exact if_congr Iff.rfl rfl rfl

/-- Machine words hold the progress, and there is room in a word for the output
behind the symbol that is taken next, if any is. -/
structure FitsWords (progress : Progress) (stream : Bytes) : Prop where
  cursor_lt : progress.cursor < 2 ^ 64
  remaining_lt : progress.remaining < 2 ^ 64
  produced_lt : progress.produced < 2 ^ 64
  next_lt : ∀ symbol next, progress.next? stream = some (symbol, next) → next.produced < 2 ^ 64

end Progress

namespace Checked

/-- The state in machine words that stands for a progress. -/
def State.ofProgress (progress : Progress) : State where
  cursor := .ofNat progress.cursor
  remaining := .ofNat progress.remaining
  produced := .ofNat progress.produced

section Step

variable {progress : Progress} {opening : Bytes} {tag : UInt8} {size width length offset : Nat}

theorem advance_eq_ok (hcursor : progress.cursor + width < 2 ^ 64)
    (hremaining : progress.remaining < 2 ^ 64) (hlength : length ≤ progress.remaining)
    (hproduced : progress.produced + length < 2 ^ 64) :
    advance (.ofProgress progress) (.ofNat width) (.ofNat length) =
      .ok (.ofProgress
        ⟨progress.cursor + width, progress.remaining - length, progress.produced + length⟩) := by
  simp only [advance, State.ofProgress]
  rw [add_ofNat hcursor, sub_ofNat hremaining hlength, add_ofNat hproduced]
  rfl

/-- A literal whose length is computed without a fault is compared and taken
without one. -/
theorem takeLiteral_eq_ok (hannounced : literalLength opening tag (.ofNat width) = .ok (.ofNat length))
    (hlength : length < 2 ^ 64) (hsize : size < 2 ^ 63) (hremaining : progress.remaining < 2 ^ 64)
    (hopening : progress.cursor + width ≤ size)
    (hroom : length ≤ progress.remaining → length ≤ size - (progress.cursor + width) →
      progress.produced + length < 2 ^ 64) :
    takeLiteral (.ofNat size) (.ofProgress progress) opening tag (.ofNat width)
        (.ofNat (progress.cursor + width)) =
      .ok (if length ≤ progress.remaining ∧ length ≤ size - (progress.cursor + width) then
        some (.literal length (progress.cursor + width), .ofProgress
          ⟨progress.cursor + (width + length), progress.remaining - length,
            progress.produced + length⟩)
        else none) := by
  have hwanted : (State.ofProgress progress).remaining < UInt64.ofNat length ↔
      progress.remaining < length := ofNat_lt_ofNat_iff hremaining hlength
  have hbehind : UInt64.ofNat (size - (progress.cursor + width)) < UInt64.ofNat length ↔
      size - (progress.cursor + width) < length :=
    ofNat_lt_ofNat_iff (by omega) hlength
  rw [takeLiteral, hannounced, ok_bind]
  by_cases hlong : progress.remaining < length
  · rw [if_pos (hwanted.2 hlong), if_neg (by omega)]
    rfl
  · rw [if_neg (mt hwanted.1 hlong), sub_ofNat (by omega) hopening, ok_bind]
    by_cases hbeyond : size - (progress.cursor + width) < length
    · rw [if_pos (hbehind.2 hbeyond), if_neg (by omega)]
      rfl
    · have hproduced := hroom (by omega) (by omega)
      rw [if_neg (mt hbehind.1 hbeyond), if_pos ⟨by omega, by omega⟩, add_ofNat (by omega), ok_bind,
        advance_eq_ok (by omega) hremaining (by omega) hproduced, ok_bind, toNat_ofNat hlength,
        toNat_ofNat (by omega)]
      rfl

theorem takeCopy_eq_ok
    (hannounced : copyFields opening tag (.ofNat width) = .ok (.ofNat length, .ofNat offset))
    (hlength : length < 2 ^ 64) (hoffset : offset < 2 ^ 64)
    (hcursor : progress.cursor + width < 2 ^ 64) (hremaining : progress.remaining < 2 ^ 64)
    (hproduced : progress.produced < 2 ^ 64)
    (hroom : length ≤ progress.remaining ∧ 1 ≤ offset ∧ offset ≤ progress.produced →
      progress.produced + length < 2 ^ 64) :
    takeCopy (.ofProgress progress) opening tag (.ofNat width) =
      .ok (if length ≤ progress.remaining ∧ 1 ≤ offset ∧ offset ≤ progress.produced then
        some (.copy length offset, .ofProgress
          ⟨progress.cursor + width, progress.remaining - length, progress.produced + length⟩)
        else none) := by
  have hzero := ofNat_eq_zero_iff hoffset
  have hreach : (State.ofProgress progress).produced < UInt64.ofNat offset ↔
      progress.produced < offset := ofNat_lt_ofNat_iff hproduced hoffset
  have hwanted : (State.ofProgress progress).remaining < UInt64.ofNat length ↔
      progress.remaining < length := ofNat_lt_ofNat_iff hremaining hlength
  rw [takeCopy, hannounced, ok_bind]
  simp only [hzero, hreach, hwanted]
  by_cases htaken : length ≤ progress.remaining ∧ 1 ≤ offset ∧ offset ≤ progress.produced
  · rw [if_neg (by omega), if_pos htaken, advance_eq_ok hcursor hremaining htaken.1 (hroom htaken),
      ok_bind, toNat_ofNat hlength, toNat_ofNat hoffset]
    rfl
  · rw [if_pos (by omega), if_neg htaken]
    rfl

end Step

section Stream

variable {stream : Bytes} {progress : Progress}

/-- What is taken in machine words stands for what the walk takes. -/
def State.taken (stream : Bytes) (progress : Progress) : Option (Symbol × State) :=
  (progress.next? stream).map fun (symbol, next) => (symbol, .ofProgress next)

section Opening

variable {tag : UInt8} {fields rest : List UInt8} {opening : Bytes}

theorem takeLiteral_eq_taken (hsize : stream.size < 2 ^ 63) (hwords : progress.FitsWords stream)
    (hinput : stream.toList.drop progress.cursor = tag :: (fields ++ rest))
    (hfields : fields.length = Tag.fieldWidth tag) (hkind : Tag.kind tag = .literal)
    (hopening : opening.toList = tag :: fields) :
    takeLiteral (.ofNat stream.size) (.ofProgress progress) opening tag (.ofNat (Tag.width tag))
      (.ofNat (progress.cursor + Tag.width tag)) = .ok (State.taken stream progress) := by
  obtain ⟨length, hlength⟩ : ∃ length, Element.announcedLength tag fields = length := ⟨_, rfl⟩
  have hannounced := literalLength_eq_ok hopening hfields
  have hbound := announcedLength_le hfields
  have hbehind := congrArg List.length hinput
  rw [List.length_drop, stream.length_toList, List.length_cons, List.length_append] at hbehind
  have hrest : stream.size - (progress.cursor + Tag.width tag) = rest.length := by
    rw [Tag.width]
    omega
  have hnext := Progress.next?_literal hinput hfields hkind hlength
  rw [hlength] at hannounced hbound
  rw [takeLiteral_eq_ok hannounced (by omega) hsize hwords.remaining_lt (by rw [Tag.width]; omega),
    hrest, State.taken, hnext]
  · split <;> rfl
  · intro hwanted hfits
    rw [hrest] at hfits
    exact hwords.next_lt _ _ (hnext.trans (if_pos ⟨hwanted, hfits⟩))

theorem takeCopy_eq_taken (hcursor : progress.cursor < 2 ^ 63) (hwords : progress.FitsWords stream)
    (hinput : stream.toList.drop progress.cursor = tag :: (fields ++ rest))
    (hfields : fields.length = Tag.fieldWidth tag) {form : CopyForm}
    (hkind : Tag.kind tag = form.kind) (hopening : opening.toList = tag :: fields) :
    takeCopy (.ofProgress progress) opening tag (.ofNat (Tag.width tag)) =
      .ok (State.taken stream progress) := by
  have hwidth := Tag.fieldWidth_le tag
  obtain ⟨length, offset, hcopy, hlength, hoffset, hannounced⟩ :=
    copyFields_eq_ok form hkind hopening hfields
  have hnext := Progress.next?_copy hinput hfields hkind hcopy
  rw [takeCopy_eq_ok hannounced (by omega) (by omega) (by rw [Tag.width]; omega) hwords.remaining_lt
    hwords.produced_lt, State.taken, hnext]
  · split <;> rfl
  · intro htaken
    exact hwords.next_lt _ _ (hnext.trans (if_pos htaken))

theorem takeOpened_eq_taken (hsize : stream.size < 2 ^ 63) (hwords : progress.FitsWords stream)
    (hinput : stream.toList.drop progress.cursor = tag :: (fields ++ rest))
    (hfields : fields.length = Tag.fieldWidth tag) (hopening : opening.toList = tag :: fields) :
    takeOpened (.ofNat stream.size) (.ofProgress progress) opening tag (.ofNat (Tag.width tag))
      (.ofNat (progress.cursor + Tag.width tag)) = .ok (State.taken stream progress) := by
  have hwithin : progress.cursor < stream.size := by
    have hlength := congrArg List.length hinput
    rw [List.length_drop, stream.length_toList, List.length_cons] at hlength
    omega
  rw [takeOpened]
  by_cases hliteral : Tag.kind tag = .literal
  · rw [if_pos ((and_three_eq_zero_iff tag).2 hliteral)]
    exact takeLiteral_eq_taken hsize hwords hinput hfields hliteral hopening
  · obtain ⟨form, hkind⟩ := CopyForm.exists_kind_eq hliteral
    rw [if_neg (mt (and_three_eq_zero_iff tag).1 hliteral)]
    exact takeCopy_eq_taken (by omega) hwords hinput hfields hkind hopening

end Opening

/-- Taking a symbol in machine words never runs into a fault, and takes what the
walk takes next. -/
theorem takeSymbol_eq_taken (hsize : stream.size < 2 ^ 63) (hwords : progress.FitsWords stream) :
    takeSymbol stream (.ofNat stream.size) (.ofProgress progress) =
      .ok (State.taken stream progress) := by
  have hcursor := hwords.cursor_lt
  have hat : (State.ofProgress progress).cursor = .ofNat progress.cursor := rfl
  have hended := ofNat_le_ofNat_iff (a := stream.size) (by omega) hcursor
  rw [takeSymbol, hat]
  by_cases hend : stream.size ≤ progress.cursor
  · have hnothing : stream.toList.drop progress.cursor = [] :=
      List.drop_eq_nil_iff.2 (by rwa [stream.length_toList])
    rw [if_pos (hended.2 hend), State.taken, Progress.next?_eq_none_of_no_tag hnothing]
    rfl
  · obtain ⟨tag, behind, hinput⟩ : ∃ tag behind, stream.toList.drop progress.cursor = tag :: behind :=
      List.exists_cons_of_ne_nil (mt List.drop_eq_nil_iff.1 (by rwa [stream.length_toList]))
    have hitem : itemAt stream (.ofNat progress.cursor) = .ok tag := by
      rw [itemAt, toNat_ofNat hcursor, ← Array.getElem?_toList, ← List.head?_drop, hinput]
      rfl
    have hlength := congrArg List.length hinput
    rw [List.length_drop, stream.length_toList, List.length_cons] at hlength
    have hwidth : Tag.width tag ≤ 5 := by
      have hfields := Tag.fieldWidth_le tag
      rw [Tag.width]
      omega
    have hlonger := ofNat_lt_ofNat_iff (a := stream.size) (b := progress.cursor + Tag.width tag)
      (by omega) (by omega)
    rw [if_neg (mt hended.1 hend), hitem, ok_bind, tagWidth_eq_ok, ok_bind, add_ofNat (by omega),
      ok_bind]
    by_cases hshort : behind.length < Tag.fieldWidth tag
    · rw [if_pos (hlonger.2 (by rw [Tag.width]; omega)), State.taken,
        Progress.next?_eq_none_of_short hinput hshort]
      rfl
    · rw [if_neg (mt hlonger.1 (by rw [Tag.width]; omega))]
      -- The bytes behind the tag are its fields and what follows the opening.
      have hbehind := (List.take_append_drop (Tag.fieldWidth tag) behind).symm
      have hfields : (behind.take (Tag.fieldWidth tag)).length = Tag.fieldWidth tag :=
        List.length_take_of_le (by omega)
      have hopening : (stream.extract (UInt64.ofNat progress.cursor).toNat
          (UInt64.ofNat (progress.cursor + Tag.width tag)).toNat).toList =
            tag :: behind.take (Tag.fieldWidth tag) := by
        rw [toNat_ofNat hcursor, toNat_ofNat (by omega), Array.toList_extract,
          List.extract_eq_take_drop, Nat.add_sub_cancel_left, hinput, Tag.width, Nat.add_comm 1,
          List.take_succ_cons]
      rw [hbehind] at hinput
      exact takeOpened_eq_taken hsize hwords hinput hfields hopening

end Stream

end Checked

/-- A symbol is taken exactly where the stream spells an element that may come
next, and no stream spells two elements in one place. The symbol tells which
element it is, and the step moves behind that element, which ends within the
stream. Neither the bytes around the element nor the state enter into the outcome,
but for the two comparisons that let the element come next. The step in words of 64
bits is the same one and is never a fault, as long as a word holds the position in
the output behind the symbol. -/
theorem next?_takes_element (stream : Bytes) (progress : Progress) :
    (∀ symbol next, progress.next? stream = some (symbol, next) ↔
      ∃ element, progress.Finds stream element ∧ progress.Takes element symbol next) ∧
    (∀ element, progress.Finds stream element →
      (∀ other : Element, other.Valid → other.encode <+: stream.toList.drop progress.cursor →
        other = element) ∧
      progress.cursor + element.encode.length ≤ stream.size ∧
      ∀ (other : Bytes) (state : Progress), state.cursor = progress.cursor →
        other.extract progress.cursor (progress.cursor + element.encode.length) =
          stream.extract progress.cursor (progress.cursor + element.encode.length) →
        ∀ symbol next, state.next? other = some (symbol, next) ↔
          state.Allows element ∧ state.Takes element symbol next) ∧
    (stream.size < 2 ^ 63 → progress.FitsWords stream →
      Checked.takeSymbol stream (.ofNat stream.size) (.ofProgress progress) =
        .ok ((progress.next? stream).map fun (symbol, next) => (symbol, .ofProgress next))) := by
  refine ⟨?_, ?_, fun hsize hwords => Checked.takeSymbol_eq_taken hsize hwords⟩
  · intro symbol next
    exact Progress.next?_eq_some_iff
  · intro element hfinds
    refine ⟨?_, hfinds.end_le, ?_⟩
    · intro other hother hat
      exact Element.eq_of_encode_isPrefix hfinds.valid hother hfinds.encoded hat
    · intro other state hcursor hsame symbol next
      have hat := hfinds.encode_isPrefix hsame
      rw [← hcursor] at hat
      exact Progress.next?_eq_some_iff_of_encode hfinds.valid hat

/-- A literal whose length takes two bytes, in words as well; and a copy of five
bytes, which is taken again where other bytes surround it, unless too little is
wanted there or nothing has been produced to copy from. -/
theorem next?_takes_element_of_literal_and_copy :
    (Progress.Finds ⟨1, 9, 1⟩ #[0xff, 0xf4, 0x01, 0x00, 0x61, 0x62] (.literal 2 [0x61, 0x62]) ∧
      Progress.next? ⟨1, 9, 1⟩ #[0xff, 0xf4, 0x01, 0x00, 0x61, 0x62] =
        some (.literal 2 4, ⟨6, 7, 3⟩) ∧
      Progress.FitsWords ⟨1, 9, 1⟩ #[0xff, 0xf4, 0x01, 0x00, 0x61, 0x62] ∧
      Checked.takeSymbol #[0xff, 0xf4, 0x01, 0x00, 0x61, 0x62] 6 ⟨1, 9, 1⟩ =
        .ok (some (.literal 2 4, ⟨6, 7, 3⟩))) ∧
      Progress.Finds ⟨3, 9, 1⟩ #[0xff, 0x00, 0x61, 0x05, 0x01] (.copy .oneByte 5 1) ∧
      Progress.next? ⟨3, 9, 1⟩ #[0xff, 0x00, 0x61, 0x05, 0x01] = some (.copy 5 1, ⟨5, 4, 6⟩) ∧
      Progress.next? ⟨3, 5, 7⟩ #[0x00, 0x00, 0x00, 0x05, 0x01, 0x77] = some (.copy 5 1, ⟨5, 0, 12⟩) ∧
      Progress.next? ⟨3, 4, 7⟩ #[0x00, 0x00, 0x00, 0x05, 0x01, 0x77] = none ∧
      Progress.next? ⟨3, 5, 0⟩ #[0x00, 0x00, 0x00, 0x05, 0x01, 0x77] = none := by
  have hliteral : Progress.Finds ⟨1, 9, 1⟩ #[0xff, 0xf4, 0x01, 0x00, 0x61, 0x62]
      (.literal 2 [0x61, 0x62]) := ⟨by decide, by decide, by decide, nofun⟩
  have hcopy : Progress.Finds ⟨3, 9, 1⟩ #[0xff, 0x00, 0x61, 0x05, 0x01] (.copy .oneByte 5 1) :=
    ⟨by decide, by decide, by decide, by rintro form length offset ⟨⟩; decide⟩
  obtain ⟨htakes, -, hwords⟩ :=
    next?_takes_element #[0xff, 0xf4, 0x01, 0x00, 0x61, 0x62] ⟨1, 9, 1⟩
  obtain ⟨htakes', hfound, -⟩ := next?_takes_element #[0xff, 0x00, 0x61, 0x05, 0x01] ⟨3, 9, 1⟩
  have htaken := (htakes (.literal 2 4) ⟨6, 7, 3⟩).2 ⟨_, hliteral, ⟨rfl, rfl⟩, rfl, rfl, rfl⟩
  have hfits : Progress.FitsWords ⟨1, 9, 1⟩ #[0xff, 0xf4, 0x01, 0x00, 0x61, 0x62] := by
    refine ⟨by decide, by decide, by decide, ?_⟩
    intro symbol next hnext
    cases htaken.symm.trans hnext
    decide
  have hword := hwords (by decide) hfits
  rw [htaken] at hword
  obtain ⟨-, -, hlocal⟩ := hfound _ hcopy
  have hsame : (#[0x00, 0x00, 0x00, 0x05, 0x01, 0x77] : Bytes).extract 3 5 =
      (#[0xff, 0x00, 0x61, 0x05, 0x01] : Bytes).extract 3 5 := by decide
  refine ⟨⟨hliteral, htaken, hfits, hword⟩, hcopy,
    (htakes' (.copy 5 1) ⟨5, 4, 6⟩).2 ⟨_, hcopy, ⟨rfl, rfl⟩, rfl, rfl, rfl⟩,
    (hlocal _ ⟨3, 5, 7⟩ rfl hsame (.copy 5 1) ⟨5, 0, 12⟩).2 ⟨⟨by decide, ?_⟩, ⟨rfl, rfl⟩, rfl, rfl, rfl⟩,
    ?_, ?_⟩
  · rintro form length offset ⟨⟩
    decide
  · apply Option.eq_none_iff_forall_ne_some.2
    rintro ⟨symbol, next⟩ hnext
    have hshort := ((hlocal _ ⟨3, 4, 7⟩ rfl hsame symbol next).1 hnext).1.length_le
    revert hshort
    decide
  · apply Option.eq_none_iff_forall_ne_some.2
    rintro ⟨symbol, next⟩ hnext
    have hreaches := ((hlocal _ ⟨3, 5, 0⟩ rfl hsame symbol next).1 hnext).1.copy_reaches _ _ _ rfl
    revert hreaches
    decide

end Snappy
