import Mathlib.Data.List.Forall2
import Snappy.Decoding.Displacement
import Snappy.Proofs.Decoding.Expansion
import Snappy.Proofs.Decoding.Records

namespace Snappy

theorem Element.displaced_record (here there cursor produced : Nat) (element : Element) :
    (element.record (here + cursor) produced).Displaced here there
      (element.record (there + cursor) produced) := by
  refine ⟨by simp only [record]; omega, rfl, rfl, ?_⟩
  cases element with
  | literal extra payload => exact ⟨rfl, by omega⟩
  | copy form length offset => exact ⟨rfl, rfl⟩

theorem forall₂_displaced_locate (here there cursor produced : Nat) (elements : List Element) :
    List.Forall₂ (Record.Displaced here there) (locate (here + cursor) produced elements)
      (locate (there + cursor) produced elements) := by
  induction elements generalizing cursor produced with
  | nil => exact .nil
  | cons element elements ih =>
    have hothers := ih (cursor + element.width) (produced + element.length)
    rw [← Nat.add_assoc, ← Nat.add_assoc] at hothers
    exact .cons (element.displaced_record here there cursor produced) hothers

/-- The bytes before the start decide where the elements lie. They do not decide
which elements are found nor what these expand to. -/
theorem decode_append_left (front : Bytes) {body : Bytes} (requested : Nat) {start : Nat}
    (hstart : start ≤ body.size) :
    ∃ decoding, decode (front ++ body) requested (front.size + start) = .ok decoding ∧
      decoding.records =
        locate (front.size + start) 0 (Element.parse 0 requested (body.toList.drop start)) ∧
      decoding.expand (front ++ body) =
        .ok (Element.expandAll [] (Element.parse 0 requested (body.toList.drop start))).toArray := by
  have hinput : (front ++ body).toList.drop (front.size + start) = body.toList.drop start := by
    rw [Array.toList_append, ← front.length_toList, ← List.drop_drop, List.drop_left]
  have hwithin : front.size + start ≤ (front ++ body).size := by
    rw [Array.size_append]
    omega
  have hparse : Element.parse 0 requested ((front ++ body).toList.drop (front.size + start)) =
      Element.parse 0 requested (body.toList.drop start) := by rw [hinput]
  have hopens := Element.opens_parse 0 requested ((front ++ body).toList.drop (front.size + start))
  rw [hparse] at hopens
  exact ⟨_, decode_eq_ok_of_parse hwithin hparse (hopens.continues _), rfl,
    Decoding.expand_locate _ hopens.sound hopens.encoded⟩

/-- Behind other bytes, or behind fewer or more of them, the same symbols are
found, and their positions in the stream move along with the bytes that hold
them. The output is the same. -/
theorem decode_displaced (front front' : Bytes) {body : Bytes} (requested : Nat) {start : Nat}
    (hstart : start ≤ body.size) :
    ∃ here there output, decode (front ++ body) requested (front.size + start) = .ok here ∧
      decode (front' ++ body) requested (front'.size + start) = .ok there ∧
      List.Forall₂ (Record.Displaced front.size front'.size) here.records there.records ∧
      here.expand (front ++ body) = .ok output ∧ there.expand (front' ++ body) = .ok output := by
  obtain ⟨here, hhere, hrecords, hexpand⟩ := decode_append_left front requested hstart
  obtain ⟨there, hthere, hrecords', hexpand'⟩ := decode_append_left front' requested hstart
  refine ⟨here, there, _, hhere, hthere, ?_, hexpand, hexpand'⟩
  rw [hrecords, hrecords']
  exact forall₂_displaced_locate front.size front'.size start 0 _

/-- Two letters in front, and none. In neither place does the copy reach them. -/
theorem decode_displaced_to_front :
    1 ≤ (#[0xff, 0x00, 0x63, 0x01, 0x01, 0x01, 0x06] : Bytes).size ∧
      ∃ (here there : Decoding) (output : Bytes),
        decode (#[0x61, 0x62] ++ #[0xff, 0x00, 0x63, 0x01, 0x01, 0x01, 0x06]) 9 3 = .ok here ∧
        here.records = [⟨3, 2, 0, .literal 1 4⟩, ⟨5, 2, 1, .copy 4 1⟩] ∧
        decode (#[] ++ #[0xff, 0x00, 0x63, 0x01, 0x01, 0x01, 0x06]) 9 1 = .ok there ∧
        there.records = [⟨1, 2, 0, .literal 1 2⟩, ⟨3, 2, 1, .copy 4 1⟩] ∧
        List.Forall₂ (Record.Displaced 2 0) here.records there.records ∧
        here.expand (#[0x61, 0x62] ++ #[0xff, 0x00, 0x63, 0x01, 0x01, 0x01, 0x06]) = .ok output ∧
        there.expand (#[] ++ #[0xff, 0x00, 0x63, 0x01, 0x01, 0x01, 0x06]) = .ok output := by
  have hstart : 1 ≤ (#[0xff, 0x00, 0x63, 0x01, 0x01, 0x01, 0x06] : Bytes).size := by decide
  have hhere : decode (#[0x61, 0x62] ++ #[0xff, 0x00, 0x63, 0x01, 0x01, 0x01, 0x06]) 9 3 =
      .ok ⟨[⟨3, 2, 0, .literal 1 4⟩, ⟨5, 2, 1, .copy 4 1⟩], 9, by decide⟩ := by cbv
  have hthere : decode (#[] ++ #[0xff, 0x00, 0x63, 0x01, 0x01, 0x01, 0x06]) 9 1 =
      .ok ⟨[⟨1, 2, 0, .literal 1 2⟩, ⟨3, 2, 1, .copy 4 1⟩], 9, by decide⟩ := by cbv
  obtain ⟨here, there, output, hdecode, hdecode', hdisplaced, hexpand, hexpand'⟩ :=
    decode_displaced #[0x61, 0x62] #[] 9 hstart
  cases hhere.symm.trans hdecode
  cases hthere.symm.trans hdecode'
  exact ⟨hstart, _, _, output, hdecode, rfl, hdecode', rfl, hdisplaced, hexpand, hexpand'⟩

end Snappy
