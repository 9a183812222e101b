import Snappy.Bytes.Basic
import Snappy.Decoding.Basic
import Snappy.Element.Reader
import Snappy.Error

namespace Snappy

/-- How far a walk over a stream has come: the position of the next tag, the
output bytes still wanted, and the output bytes produced. -/
structure Progress where
  cursor : Nat
  remaining : Nat
  produced : Nat
  deriving DecidableEq, Repr

namespace Progress

/-- The element may come next: it is not longer than what is wanted, and it
looks at nothing but output produced before it. -/
def Admits (progress : Progress) (element : Element) : Prop :=
  element.length ≤ progress.remaining ∧ element.Reaches progress.produced

instance decidableAdmits (progress : Progress) (element : Element) : Decidable (progress.Admits element) :=
  inferInstanceAs (Decidable (element.length ≤ progress.remaining ∧ element.Reaches progress.produced))

/-- The progress behind the element. -/
def advance (progress : Progress) (element : Element) : Progress where
  cursor := progress.cursor + element.width
  remaining := progress.remaining - element.length
  produced := progress.produced + element.length

/-- The element with which the bytes begin, if it may come next. -/
def nextElement? (progress : Progress) (input : List UInt8) : Option (Element × List UInt8) :=
  (Element.read? input).filter fun (element, _) => progress.Admits element

theorem length_lt_of_nextElement? {progress : Progress} {input rest : List UInt8} {element : Element}
    (hnext : progress.nextElement? input = some (element, rest)) : rest.length < input.length :=
  Element.length_lt_of_read? (Option.filter_eq_some_iff.1 hnext).1

/-- Takes the symbol whose tag the progress points at, if it can be taken. -/
def next? (progress : Progress) (stream : Bytes) : Option (Symbol × Progress) :=
  (progress.nextElement? (stream.toList.drop progress.cursor)).map fun (element, _) =>
    (element.symbolAt progress.cursor, progress.advance element)

end Progress

/-- Appends to `found` the records of the elements with which the input begins,
up to the first that may not come next. -/
def walk (input : List UInt8) (progress : Progress) (found : Array Record) : Array Record :=
  if progress.remaining = 0 then found
  else
    match _h : progress.nextElement? input with
    | none => found
    | some (element, rest) =>
      walk rest (progress.advance element)
        (found.push (element.record progress.cursor progress.produced))
termination_by input.length
decreasing_by exact Progress.length_lt_of_nextElement? _h

/-- What a walk finds goes on from where the walk begins, and keeps to what is wanted. -/
theorem exists_continues_walk (input : List UInt8) (progress : Progress) (found : Array Record) :
    ∃ records, (walk input progress found).toList = found.toList ++ records ∧
      Continues (progress.produced + progress.remaining) progress.produced records ∧
      ∀ next ∈ records.head?, next.cursor = progress.cursor := by
  fun_induction walk input progress found with
  | case1 input progress found hdone => exact ⟨[], (List.append_nil _).symm, trivial, nofun⟩
  | case2 input progress found hwanted hstop => exact ⟨[], (List.append_nil _).symm, trivial, nofun⟩
  | case3 input progress found hwanted element rest hnext ih =>
    obtain ⟨records, hrecords, hcontinues, hcursor⟩ := ih
    obtain ⟨hlength, hreaches⟩ := of_decide_eq_true (Option.filter_eq_some_iff.1 hnext).2
    have hlimit : (progress.advance element).produced + (progress.advance element).remaining =
        progress.produced + progress.remaining := by
      simp only [Progress.advance]
      omega
    refine ⟨element.record progress.cursor progress.produced :: records, ?_,
      ⟨rfl, hreaches.symbolAt _, ?_, hcursor, ?_⟩, ?_⟩
    · rw [hrecords, Array.toList_push, List.append_assoc]
      rfl
    · rw [Element.outputEnd_record]
      omega
    · rw [hlimit] at hcontinues
      rw [Element.outputEnd_record]
      exact hcontinues
    · rintro next ⟨⟩
      rfl

theorem continues_walk (input : List UInt8) (requested start : Nat) :
    Continues requested 0 (walk input ⟨start, requested, 0⟩ #[]).toList := by
  obtain ⟨records, hrecords, hcontinues, -⟩ := exists_continues_walk input ⟨start, requested, 0⟩ #[]
  rw [Nat.zero_add] at hcontinues
  rw [hrecords]
  exact hcontinues

/-- Decodes the stream from the tag at `start` on, until `requested` bytes of
output are covered. A symbol that cannot be taken ends the decoding without
an error; the decoding then is incomplete. -/
def decode (stream : Bytes) (requested start : Nat) : Except Error Decoding :=
  if start ≤ stream.size then
    .ok {
      records := (walk (stream.toList.drop start) ⟨start, requested, 0⟩ #[]).toList
      requested := requested
      continues := continues_walk _ requested start }
  else .error .startBeyondStream

/-- Decodes the stream from its first byte on. -/
def decodeFromStart (stream : Bytes) (requested : Nat) : Except Error Decoding :=
  decode stream requested 0

end Snappy
