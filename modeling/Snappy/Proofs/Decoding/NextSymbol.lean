import Snappy.Proofs.Decoding.Records

namespace Snappy

/-- The bytes of at most one element begin a run of bytes. -/
theorem Element.eq_of_encode_isPrefix {bytes : List UInt8} {element other : Element}
    (hvalid : element.Valid) (hother : other.Valid) (hat : element.encode <+: bytes)
    (hat' : other.encode <+: bytes) : other = element := by
  obtain ⟨rest, rfl⟩ := hat
  obtain ⟨rest', hrest⟩ := hat'
  have hread := read?_encode rest hvalid
  rw [← hrest, read?_encode rest' hother] at hread
  cases hread
  rfl

theorem Element.reaches_iff {produced : Nat} {element : Element} :
    element.Reaches produced ↔ ∀ form length offset, element = .copy form length offset →
      1 ≤ offset ∧ offset ≤ produced := by
  constructor
  · rintro hreaches form length offset rfl
    exact hreaches
  · intro hcopy
    cases element with
    | literal extra payload => trivial
    | copy form length offset => exact hcopy form length offset rfl

namespace Progress

variable {stream : Bytes} {progress : Progress} {element : Element}

/-- The two comparisons that let the element come next. -/
structure Allows (progress : Progress) (element : Element) : Prop where
  length_le : element.length ≤ progress.remaining
  copy_reaches : ∀ form length offset, element = .copy form length offset →
    1 ≤ offset ∧ offset ≤ progress.produced

theorem allows_iff_admits : progress.Allows element ↔ progress.Admits element := by
  rw [Admits, Element.reaches_iff]
  exact ⟨fun ⟨hlength, hreaches⟩ => ⟨hlength, hreaches⟩, fun ⟨hlength, hreaches⟩ => ⟨hlength, hreaches⟩⟩

/-- The stream spells the element where the progress points, and the element may
come next. -/
structure Finds (progress : Progress) (stream : Bytes) (element : Element) : Prop where
  valid : element.Valid
  encoded : element.encode <+: stream.toList.drop progress.cursor
  allowed : progress.Allows element

/-- The element is taken: the symbol tells what it is, and the next progress is
the one behind it. -/
structure Takes (progress : Progress) (element : Element) (symbol : Symbol) (next : Progress) :
    Prop where
  tells : symbol.Tells progress.cursor element
  cursor_eq : next.cursor = progress.cursor + element.encode.length
  remaining_eq : next.remaining = progress.remaining - element.length
  produced_eq : next.produced = progress.produced + element.length

theorem takes_iff {symbol : Symbol} {next : Progress} :
    progress.Takes element symbol next ↔
      symbol = element.symbolAt progress.cursor ∧ next = progress.advance element := by
  constructor
  · rintro ⟨htells, hcursor, hremaining, hproduced⟩
    refine ⟨Symbol.tells_iff.1 htells, ?_⟩
    rw [Element.length_encode] at hcursor
    cases next
    cases hcursor
    cases hremaining
    cases hproduced
    rfl
  · rintro ⟨rfl, rfl⟩
    exact ⟨Symbol.tells_iff.2 rfl, by rw [Element.length_encode]; rfl, rfl, rfl⟩

/-- The element that comes next is the one to be found, and the bytes go on behind
it. -/
theorem finds_of_nextElement? {rest : List UInt8}
    (hnext : progress.nextElement? (stream.toList.drop progress.cursor) = some (element, rest)) :
    progress.Finds stream element ∧ stream.toList.drop (progress.advance element).cursor = rest := by
  obtain ⟨hvalid, hadmits, hinput⟩ := nextElement?_eq_some_iff.1 hnext
  refine ⟨⟨hvalid, ⟨rest, hinput.symm⟩, allows_iff_admits.2 hadmits⟩, ?_⟩
  rw [advance, ← List.drop_drop, hinput, List.drop_left' (Element.length_encode element)]

/-- Where the stream spells an element, nothing is left to the step but whether
that element may come next. -/
theorem next?_eq_ite (hvalid : element.Valid)
    (hat : element.encode <+: stream.toList.drop progress.cursor) :
    progress.next? stream =
      if progress.Admits element then
        some (element.symbolAt progress.cursor, progress.advance element)
      else none := by
  obtain ⟨rest, hrest⟩ := hat
  have hread := Element.read?_encode rest hvalid
  rw [next?, nextElement?, ← hrest, hread, Option.filter_some]
  by_cases hadmits : progress.Admits element <;> simp [hadmits]

theorem next?_eq_ite_of_read? {rest : List UInt8}
    (hread : Element.read? (stream.toList.drop progress.cursor) = some (element, rest)) :
    progress.next? stream =
      if progress.Admits element then
        some (element.symbolAt progress.cursor, progress.advance element)
      else none := by
  obtain ⟨hvalid, hinput⟩ := Element.read?_eq_some_iff.1 hread
  exact next?_eq_ite hvalid ⟨rest, hinput.symm⟩

theorem next?_eq_some_iff_of_encode {symbol : Symbol} {next : Progress} (hvalid : element.Valid)
    (hat : element.encode <+: stream.toList.drop progress.cursor) :
    progress.next? stream = some (symbol, next) ↔
      progress.Allows element ∧ progress.Takes element symbol next := by
  rw [next?_eq_ite hvalid hat, allows_iff_admits, takes_iff]
  by_cases hadmits : progress.Admits element <;> simp [hadmits, eq_comm]

theorem next?_eq_some_iff {symbol : Symbol} {next : Progress} :
    progress.next? stream = some (symbol, next) ↔
      ∃ element, progress.Finds stream element ∧ progress.Takes element symbol next := by
  constructor
  · intro htaken
    obtain ⟨⟨element, rest⟩, hnext, -⟩ := Option.map_eq_some_iff.1 htaken
    have hfinds := (finds_of_nextElement? hnext).1
    exact ⟨element, hfinds, ((next?_eq_some_iff_of_encode hfinds.valid hfinds.encoded).1 htaken).2⟩
  · rintro ⟨element, ⟨hvalid, hat, hallowed⟩, htakes⟩
    exact (next?_eq_some_iff_of_encode hvalid hat).2 ⟨hallowed, htakes⟩

theorem Finds.end_le (hfinds : progress.Finds stream element) :
    progress.cursor + element.encode.length ≤ stream.size := by
  have hlength := hfinds.encoded.length_le
  have hwidth := hfinds.valid.two_le_width
  rw [List.length_drop, stream.length_toList] at hlength
  rw [Element.length_encode] at hlength ⊢
  omega

/-- An element is told by no other bytes than its own. -/
theorem Finds.encode_isPrefix {other : Bytes} (hfinds : progress.Finds stream element)
    (hsame : other.extract progress.cursor (progress.cursor + element.encode.length) =
      stream.extract progress.cursor (progress.cursor + element.encode.length)) :
    element.encode <+: other.toList.drop progress.cursor := by
  have hbytes (bytes : Bytes) :
      (bytes.extract progress.cursor (progress.cursor + element.encode.length)).toList =
        (bytes.toList.drop progress.cursor).take element.encode.length := by
    rw [Array.toList_extract, List.extract_eq_take_drop, Nat.add_sub_cancel_left]
  have hencoded : element.encode = (stream.toList.drop progress.cursor).take element.encode.length :=
    List.prefix_iff_eq_take.1 hfinds.encoded
  rw [← hbytes, ← hsame, hbytes] at hencoded
  exact List.prefix_iff_eq_take.2 hencoded

end Progress

end Snappy
