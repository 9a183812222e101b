import Snappy.Decoding.Restart
import Snappy.Proofs.Decoding.Restriction

namespace Snappy

namespace Element

/-- Without the output before a position, an element may stand where it may stand
with it, unless it is a copy that looks there. -/
theorem reaches_iff_staysBehind (cursor produced position : Nat) (element : Element) :
    element.Reaches produced ↔
      element.Reaches (position + produced) ∧
        (element.record cursor (position + produced)).StaysBehind position := by
  cases element with
  | literal extra payload => exact ⟨fun _ => ⟨trivial, trivial⟩, fun _ => trivial⟩
  | copy form length offset =>
    simp only [Reaches, Record.StaysBehind, record, symbolAt]
    omega

theorem sound_iff_staysBehind (cursor produced position : Nat) (elements : List Element) :
    Sound produced elements ↔
      Sound (position + produced) elements ∧
        ∀ record ∈ locate cursor (position + produced) elements, record.StaysBehind position := by
  induction elements generalizing cursor produced with
  | nil => simp [Sound, locate]
  | cons element elements ih =>
    rw [Sound, Sound, locate, List.forall_mem_cons, reaches_iff_staysBehind cursor produced position,
      ih (cursor + element.width), Nat.add_assoc]
    constructor
    · rintro ⟨hvalid, ⟨hreaches, hfirst⟩, hsound, hothers⟩
      exact ⟨⟨hvalid, hreaches, hsound⟩, hfirst, hothers⟩
    · rintro ⟨⟨hvalid, hreaches, hsound⟩, hfirst, hothers⟩
      exact ⟨hvalid, ⟨hreaches, hfirst⟩, hsound, hothers⟩

end Element

theorem map_rebase_locate (cursor produced position : Nat) (elements : List Element) :
    (locate cursor (position + produced) elements).map (Record.rebase position) =
      locate cursor produced elements := by
  induction elements generalizing cursor produced with
  | nil => rfl
  | cons element elements ih =>
    rw [locate, locate, List.map_cons, Nat.add_assoc, ih]
    simp [Record.rebase, Element.record]

/-- A parse that has no output before it finds what a parse behind some output
finds, up to the first copy that looks into that output. -/
theorem locate_parse_without_output (cursor position budget : Nat) (input : List UInt8) :
    locate cursor 0 (Element.parse 0 budget input) =
      ((locate cursor position (Element.parse position budget input)).takeWhile
        (·.StaysBehind position)).map (Record.rebase position) := by
  rw [← map_rebase_locate cursor 0 position, Nat.add_zero]
  apply congrArg (List.map (Record.rebase position))
  apply locate_parse_eq_takeWhile
  -- Bytes and budget are the same for both parses; only what copies may look at is not.
  intro elements
  have hsound := Element.sound_iff_staysBehind cursor 0 position elements
  rw [Nat.add_zero] at hsound
  simp only [decide_eq_true_eq]
  constructor
  · rintro ⟨hbare, hlength, hencoded⟩
    obtain ⟨hbehind, hstays⟩ := hsound.1 hbare
    exact ⟨⟨hbehind, hlength, hencoded⟩, hstays⟩
  · rintro ⟨⟨hbehind, hlength, hencoded⟩, hstays⟩
    exact ⟨hsound.2 ⟨hbehind, hstays⟩, hlength, hencoded⟩

theorem locate_parse_restarted {requested : Nat} {input : List UInt8} {front back : List Element}
    (hparse : Element.parse 0 requested input = front ++ back) (cursor : Nat) :
    locate cursor 0 (Element.parse 0 (requested - Element.totalLength front)
        (input.drop (Element.encodeAll front).length)) =
      ((locate cursor (Element.totalLength front) back).takeWhile
        (·.StaysBehind (Element.totalLength front))).map
          (Record.rebase (Element.totalLength front)) := by
  have hopens := Element.opens_parse 0 requested input
  rw [hparse] at hopens
  have hback := hopens.of_append.parse_eq_append
  rw [hparse, List.append_cancel_left_eq, Nat.zero_add] at hback
  rw [locate_parse_without_output, ← hback]

theorem drop_length_locate (cursor produced : Nat) (front back : List Element) :
    (locate cursor produced (front ++ back)).drop front.length =
      locate (cursor + (Element.encodeAll front).length) (produced + Element.totalLength front)
        back := by
  rw [locate_append, List.drop_left' (length_locate cursor produced front)]

/-- Before any record the walk had come just behind the elements in front of it. -/
theorem Decoding.progressAt_locate {start requested : Nat} {front back : List Element}
    {hcontinues : Continues requested 0 (locate start 0 (front ++ back))} :
    (Decoding.mk (locate start 0 (front ++ back)) requested hcontinues).progressAt start front.length =
      ⟨start + (Element.encodeAll front).length, requested - Element.totalLength front,
        Element.totalLength front⟩ := by
  cases back with
  | nil =>
    have hnone : (locate start 0 front)[front.length]? = none :=
      List.getElem?_eq_none (Nat.le_of_eq (length_locate start 0 front))
    simp only [progressAt, List.append_nil, hnone]
    rw [endCursor?_locate, producedLength_locate]
  | cons element back =>
    simp only [progressAt, getElem?_locate_append_cons]
    rfl

private theorem map_takeWhile_eq_map_iff {α β : Type} {keeps : α → Bool} {f : α → β}
    {items : List α} :
    (items.takeWhile keeps).map f = items.map f ↔ ∀ item ∈ items, keeps item = true := by
  rw [← List.takeWhile_eq_self_iff]
  constructor
  · intro hmap
    have hlength := congrArg List.length hmap
    rw [List.length_map, List.length_map] at hlength
    exact (List.takeWhile_prefix keeps).eq_of_length hlength
  · intro hall
    rw [hall]

/-- A decoding can be taken up again between any two of its records, with what was
left of the request there. It then finds the records that follow, up to the first
copy that looks at output before that place, and only their output positions
differ. So it finds all that follow if and only if no copy looks there. -/
theorem decode_restarted {stream : Bytes} (requested : Nat) {start : Nat}
    (hstart : start ≤ stream.size) :
    ∃ decoding, decode stream requested start = .ok decoding ∧
      ∀ index ≤ decoding.records.length, ∃ boundary restarted,
        decoding.progressAt start index = boundary ∧
        decode stream boundary.remaining boundary.cursor = .ok restarted ∧
        (∀ record ∈ decoding.records.drop index, boundary.produced ≤ record.outputStart) ∧
        restarted.records = ((decoding.records.drop index).takeWhile
          (·.StaysBehind boundary.produced)).map (Record.rebase boundary.produced) ∧
        (restarted.records = (decoding.records.drop index).map (Record.rebase boundary.produced) ↔
          ∀ record ∈ decoding.records.drop index, record.StaysBehind boundary.produced) := by
  have hopens := Element.opens_parse 0 requested (stream.toList.drop start)
  generalize hparse : Element.parse 0 requested (stream.toList.drop start) = elements at hopens
  refine ⟨_, decode_eq_ok_of_parse hstart hparse (hopens.continues start), ?_⟩
  intro index hindex
  -- An index splits the elements, and what is found behind it depends on the two parts
  -- only.
  obtain ⟨front, back, rfl, rfl⟩ : ∃ front back, elements = front ++ back ∧ front.length = index :=
    ⟨elements.take index, elements.drop index, (List.take_append_drop index elements).symm,
      List.length_take_of_le (by simpa using hindex)⟩
  have hcursor := add_length_le_of_isPrefix_drop hstart hopens.of_append.encoded
  have hrestarted := locate_parse_restarted hparse (start + (Element.encodeAll front).length)
  rw [List.drop_drop] at hrestarted
  have hdrop := drop_length_locate start 0 front back
  rw [Nat.zero_add] at hdrop
  refine ⟨_, _, Decoding.progressAt_locate, decode_eq_ok hcursor, ?_⟩
  simp only [hdrop, hrestarted]
  refine ⟨?_, trivial, ?_⟩
  · intro record hrecord
    exact (le_of_mem_locate record hrecord).2
  · rw [map_takeWhile_eq_map_iff]
    simp only [decide_eq_true_eq]

/-- Two letters and a copy of them, a third letter and a copy of that one, and a
copy that looks at the first letters again. Taken up again before the third
letter, the decoding ends before the last copy. -/
theorem decode_restarted_before_letter :
    0 ≤ (#[0x04, 0x61, 0x62, 0x05, 0x02, 0x00, 0x63, 0x01, 0x01, 0x01, 0x09] : Bytes).size ∧
      ∃ decoding restarted,
        decode #[0x04, 0x61, 0x62, 0x05, 0x02, 0x00, 0x63, 0x01, 0x01, 0x01, 0x09] 16 0 =
          .ok decoding ∧
        decoding.records = [⟨0, 3, 0, .literal 2 1⟩, ⟨3, 2, 2, .copy 5 2⟩, ⟨5, 2, 7, .literal 1 6⟩,
          ⟨7, 2, 8, .copy 4 1⟩, ⟨9, 2, 12, .copy 4 9⟩] ∧
        decoding.progressAt 0 2 = ⟨5, 9, 7⟩ ∧
        decode #[0x04, 0x61, 0x62, 0x05, 0x02, 0x00, 0x63, 0x01, 0x01, 0x01, 0x09] 9 5 =
          .ok restarted ∧
        restarted.records = [⟨5, 2, 0, .literal 1 6⟩, ⟨7, 2, 1, .copy 4 1⟩] := by
  have hstart : 0 ≤
      (#[0x04, 0x61, 0x62, 0x05, 0x02, 0x00, 0x63, 0x01, 0x01, 0x01, 0x09] : Bytes).size := by decide
  have hfound : decode #[0x04, 0x61, 0x62, 0x05, 0x02, 0x00, 0x63, 0x01, 0x01, 0x01, 0x09] 16 0 =
      .ok ⟨[⟨0, 3, 0, .literal 2 1⟩, ⟨3, 2, 2, .copy 5 2⟩, ⟨5, 2, 7, .literal 1 6⟩,
        ⟨7, 2, 8, .copy 4 1⟩, ⟨9, 2, 12, .copy 4 9⟩], 16, by decide⟩ := by cbv
  obtain ⟨decoding, hdecode, hrestarts⟩ := decode_restarted 16 hstart
  rw [hfound] at hdecode
  cases hdecode
  obtain ⟨boundary, restarted, rfl, hrestart, -, hrecords, -⟩ := hrestarts 2 (by decide)
  exact ⟨hstart, _, restarted, hfound, rfl, rfl, hrestart, hrecords⟩

end Snappy
