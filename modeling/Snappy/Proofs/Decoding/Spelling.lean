import Snappy.Decoding.Spelling
import Snappy.Proofs.Decoding.Expansion
import Snappy.Proofs.Decoding.Records

namespace Snappy

private theorem getElem?_eq_of_extract_eq {stream other : Bytes} {start stop position : Nat}
    (hother : stop ≤ other.size) (hstream : stop ≤ stream.size)
    (hsame : other.extract start stop = stream.extract start stop) (hlow : start ≤ position)
    (hhigh : position < stop) : other[position]? = stream[position]? := by
  have hwithin (bytes : Bytes) (hbytes : stop ≤ bytes.size) :
      (bytes.extract start stop)[position - start]? = bytes[position]? := by
    rw [Array.getElem?_extract, if_pos (by omega), Nat.add_sub_cancel' hlow]
  rw [← hwithin other hother, hsame, hwithin stream hstream]

/-- Where an element stands in a stream, its record finds its payload there and
gives the element back. -/
theorem Element.spelling_payload_record {stream : Bytes} {cursor : Nat} (produced : Nat)
    {element : Element} (hat : element.encode <+: stream.toList.drop cursor) :
    (element.record cursor produced).spelling ((element.record cursor produced).payload stream) =
      element := by
  cases element with
  | literal extra payload =>
    obtain ⟨-, hslice⟩ := slice?_eq_some_iff.1 (slice?_payload hat)
    have hpayload : ((literal extra payload).record cursor produced).payload stream = payload :=
      congrArg Array.toList hslice.symm
    rw [hpayload, spelling_record]
  | copy form length offset => exact spelling_record_copy cursor produced form length offset

theorem map_spelling_locate {stream : Bytes} {cursor : Nat} (produced : Nat)
    {elements : List Element} (hat : Element.encodeAll elements <+: stream.toList.drop cursor) :
    (locate cursor produced elements).map (fun record => record.spelling (record.payload stream)) =
      elements := by
  induction elements generalizing cursor produced with
  | nil => rfl
  | cons element elements ih =>
    obtain ⟨hfirst, hothers⟩ := Element.encodeAll_cons_isPrefix_drop hat
    rw [locate, List.map_cons, Element.spelling_payload_record produced hfirst, ih _ hothers]

namespace Decoding

variable {stream other : Bytes} {requested requested' start start' : Nat} {decoding : Decoding}

theorem elements_locate {elements : List Element}
    (hat : Element.encodeAll elements <+: stream.toList.drop start)
    {hcontinues : Continues requested 0 (locate start 0 elements)} :
    (mk (locate start 0 elements) requested hcontinues).elements stream = elements :=
  map_spelling_locate 0 hat

/-- The elements that a decoding describes are spelled by the part of the stream
that it has taken. -/
theorem encodeAll_elements (hdecode : decode stream requested start = .ok decoding) :
    decoding.endCursor?.getD start ≤ stream.size ∧
      Element.encodeAll (decoding.elements stream) =
        (stream.extract start (decoding.endCursor?.getD start)).toList := by
  obtain ⟨hstart, elements, hopens, rfl⟩ := opens_of_decode hdecode
  rw [elements_locate hopens.encoded, endCursor?_locate, extract_eq_of_isPrefix_drop hopens.encoded]
  exact ⟨add_length_le_of_isPrefix_drop hstart hopens.encoded, rfl⟩

/-- A decoding that has found anything tells where it was started. -/
theorem start_eq_of_decode (hdecode : decode stream requested start = .ok decoding)
    (hdecode' : decode other requested' start' = .ok decoding) (hfound : decoding.records ≠ []) :
    start' = start := by
  obtain ⟨-, elements, _, rfl⟩ := opens_of_decode hdecode
  obtain ⟨-, elements', _, hsame⟩ := opens_of_decode hdecode'
  have hrecords : locate start 0 elements = locate start' 0 elements' :=
    congrArg Decoding.records hsame
  cases elements with
  | nil => exact absurd rfl hfound
  | cons element elements =>
    cases elements' with
    | nil => cases hrecords
    | cons element' elements' =>
      have hfirst := (List.cons.inj hrecords).1
      exact (congrArg Record.cursor hfirst).symm

theorem elements_congr (hpayload : ∀ record ∈ decoding.records,
    record.payload other = record.payload stream) :
    decoding.elements other = decoding.elements stream := by
  apply List.map_congr_left
  intro record hrecord
  rw [hpayload record hrecord]

/-- Two streams with one decoding and the same payloads hold the same bytes as
far as the decoding has gone. -/
theorem extract_eq_of_payload_eq (hdecode : decode stream requested start = .ok decoding)
    (hdecode' : decode other requested' start' = .ok decoding)
    (hpayload : ∀ record ∈ decoding.records, record.payload other = record.payload stream) :
    (other.extract start' (decoding.endCursor?.getD start')) =
      stream.extract start (decoding.endCursor?.getD start) := by
  apply Array.toList_inj.1
  rw [← (encodeAll_elements hdecode).2, ← (encodeAll_elements hdecode').2, elements_congr hpayload]

/-- If the decoding is empty, its end is its start, and no position lies in
between; the two starts may then differ. Otherwise they are the same. -/
theorem getElem?_eq_of_payload_eq (hdecode : decode stream requested start = .ok decoding)
    (hdecode' : decode other requested' start' = .ok decoding)
    (hpayload : ∀ record ∈ decoding.records, record.payload other = record.payload stream)
    {position : Nat} (hlow : start ≤ position) (hhigh : position < decoding.endCursor?.getD start) :
    other[position]? = stream[position]? := by
  by_cases hempty : decoding.records = []
  · have hend : decoding.endCursor?.getD start = start := by
      rw [endCursor?, hempty]
      rfl
    omega
  · obtain rfl := start_eq_of_decode hdecode hdecode' hempty
    exact getElem?_eq_of_extract_eq (encodeAll_elements hdecode').1 (encodeAll_elements hdecode).1
      (extract_eq_of_payload_eq hdecode hdecode' hpayload) hlow hhigh

end Decoding

/-- Writing down what was decoded, with each literal's payload put back, gives the
bytes that were taken from the stream: an element is settled by its symbol and
its width. So another stream with the same decoding and the same payloads
agrees with this one at every position between start and end. -/
theorem decode_respelled {stream : Bytes} (requested : Nat) {start : Nat} (hstart : start ≤ stream.size) :
    ∃ decoding, decode stream requested start = .ok decoding ∧
      decoding.endCursor?.getD start ≤ stream.size ∧
      Element.encodeAll (decoding.elements stream) =
        (stream.extract start (decoding.endCursor?.getD start)).toList ∧
      ∀ (other : Bytes) (requested' start' : Nat), decode other requested' start' = .ok decoding →
        (∀ record ∈ decoding.records, record.payload other = record.payload stream) →
        ∀ position, start ≤ position → position < decoding.endCursor?.getD start →
          other[position]? = stream[position]? := by
  obtain ⟨decoding, hdecode⟩ : ∃ decoding, decode stream requested start = .ok decoding :=
    ⟨_, decode_eq_ok hstart⟩
  obtain ⟨hend, hspelled⟩ := Decoding.encodeAll_elements hdecode
  refine ⟨decoding, hdecode, hend, hspelled, ?_⟩
  intro other requested' start' hdecode' hpayload position hlow hhigh
  exact Decoding.getElem?_eq_of_payload_eq hdecode hdecode' hpayload hlow hhigh

/-- A literal whose two letters take a length byte that they do not need, and a
copy of one of them with a two-byte offset. The bytes around them differ in the
second stream. -/
theorem decode_respelled_of_wide_literal :
    1 ≤ (#[0xff, 0xf0, 0x01, 0x61, 0x62, 0x02, 0x01, 0x00, 0x0c] : Bytes).size ∧
      decode #[0xff, 0xf0, 0x01, 0x61, 0x62, 0x02, 0x01, 0x00, 0x0c] 9 1 =
        .ok ⟨[⟨1, 4, 0, .literal 2 3⟩, ⟨5, 3, 2, .copy 1 1⟩], 9, by decide⟩ ∧
      Decoding.elements ⟨[⟨1, 4, 0, .literal 2 3⟩, ⟨5, 3, 2, .copy 1 1⟩], 9, by decide⟩
          #[0xff, 0xf0, 0x01, 0x61, 0x62, 0x02, 0x01, 0x00, 0x0c] =
        [.literal 1 [0x61, 0x62], .copy .twoByte 1 1] ∧
      Element.encodeAll [.literal 1 [0x61, 0x62], .copy .twoByte 1 1] =
        [0xf0, 0x01, 0x61, 0x62, 0x02, 0x01, 0x00] ∧
      decode #[0x00, 0xf0, 0x01, 0x61, 0x62, 0x02, 0x01, 0x00, 0x01, 0x09] 9 1 =
        .ok ⟨[⟨1, 4, 0, .literal 2 3⟩, ⟨5, 3, 2, .copy 1 1⟩], 9, by decide⟩ ∧
      ∀ position, 1 ≤ position → position < 8 →
        (#[0x00, 0xf0, 0x01, 0x61, 0x62, 0x02, 0x01, 0x00, 0x01, 0x09] : Bytes)[position]? =
          (#[0xff, 0xf0, 0x01, 0x61, 0x62, 0x02, 0x01, 0x00, 0x0c] : Bytes)[position]? := by
  have hstart : 1 ≤ (#[0xff, 0xf0, 0x01, 0x61, 0x62, 0x02, 0x01, 0x00, 0x0c] : Bytes).size := by
    decide
  have hfound : decode #[0xff, 0xf0, 0x01, 0x61, 0x62, 0x02, 0x01, 0x00, 0x0c] 9 1 =
      .ok ⟨[⟨1, 4, 0, .literal 2 3⟩, ⟨5, 3, 2, .copy 1 1⟩], 9, by decide⟩ := by cbv
  have hother : decode #[0x00, 0xf0, 0x01, 0x61, 0x62, 0x02, 0x01, 0x00, 0x01, 0x09] 9 1 =
      .ok ⟨[⟨1, 4, 0, .literal 2 3⟩, ⟨5, 3, 2, .copy 1 1⟩], 9, by decide⟩ := by cbv
  obtain ⟨decoding, hdecode, -, hspelled, hagree⟩ := decode_respelled 9 hstart
  rw [hfound] at hdecode
  cases hdecode
  exact ⟨hstart, hfound, rfl, hspelled, hother, hagree _ _ _ hother (by decide)⟩

end Snappy
