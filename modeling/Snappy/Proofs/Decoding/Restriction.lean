import Mathlib.Data.List.TakeWhile
import Snappy.Proofs.Decoding.Records

namespace Snappy

theorem le_of_mem_locate {cursor produced : Nat} {elements : List Element} :
    ∀ record ∈ locate cursor produced elements,
      cursor ≤ record.cursor ∧ produced ≤ record.outputStart := by
  induction elements generalizing cursor produced with
  | nil =>
    intro record hrecord
    cases hrecord
  | cons element elements ih =>
    intro record hrecord
    rcases List.mem_cons.1 hrecord with rfl | hlater
    · exact ⟨Nat.le_refl cursor, Nat.le_refl produced⟩
    · obtain ⟨hcursor, hproduced⟩ := ih record hlater
      omega

/-- No record ends before one that stands in front of it, neither in the stream
nor in the output. -/
theorem pairwise_locate (cursor produced : Nat) (elements : List Element) :
    (locate cursor produced elements).Pairwise fun earlier later =>
      earlier.cursorEnd ≤ later.cursorEnd ∧ earlier.outputEnd ≤ later.outputEnd := by
  induction elements generalizing cursor produced with
  | nil => exact .nil
  | cons element elements ih =>
    refine List.pairwise_cons.2 ⟨?_, ih _ _⟩
    intro later hlater
    obtain ⟨hcursor, hproduced⟩ := le_of_mem_locate later hlater
    rw [Element.cursorEnd_record, Element.outputEnd_record, Record.cursorEnd, Record.outputEnd]
    omega

section Ordered

variable {position : Record → Nat} {records : List Record} {bound : Nat}

/-- Where the records come in the order of their positions, those up to a bound
are the first ones. -/
theorem filter_eq_takeWhile (bound : Nat)
    (hordered : records.Pairwise fun earlier later => position earlier ≤ position later) :
    records.filter (position · ≤ bound) = records.takeWhile (position · ≤ bound) := by
  induction records with
  | nil => rfl
  | cons record records ih =>
    obtain ⟨hfirst, hothers⟩ := List.pairwise_cons.1 hordered
    by_cases hbound : position record ≤ bound
    · rw [List.filter_cons_of_pos (by simpa using hbound),
        List.takeWhile_cons_of_pos (by simpa using hbound), ih hothers]
    · rw [List.takeWhile_cons_of_neg (by simpa using hbound), List.filter_eq_nil_iff]
      intro later hlater
      rw [decide_eq_true_eq]
      rcases List.mem_cons.1 hlater with rfl | hlater
      · exact hbound
      · have hlarger := hfirst later hlater
        omega

theorem forall_le_iff_getLast? {base : Nat}
    (hordered : records.Pairwise fun earlier later => position earlier ≤ position later)
    (hbase : base ≤ bound) :
    (∀ record ∈ records, position record ≤ bound) ↔
      (records.getLast?.map position).getD base ≤ bound := by
  rcases List.eq_nil_or_concat' records with rfl | ⟨records, last, rfl⟩
  · simpa using hbase
  · rw [List.getLast?_concat, Option.map_some, Option.getD_some]
    constructor
    · intro hall
      exact hall last (List.mem_append_right records List.mem_cons_self)
    · intro hlast record hrecord
      rcases List.mem_append.1 hrecord with hbefore | hlater
      · have hle := (List.pairwise_append.1 hordered).2.2 record hbefore last List.mem_cons_self
        exact Nat.le_trans hle hlast
      · rwa [List.mem_singleton.1 hlater]

end Ordered

theorem forall_cursorEnd_le_iff {cursor bound : Nat} (produced : Nat) (elements : List Element)
    (hcursor : cursor ≤ bound) :
    (∀ record ∈ locate cursor produced elements, record.cursorEnd ≤ bound) ↔
      cursor + (Element.encodeAll elements).length ≤ bound := by
  rw [← cursorEnd_getLast?_locate cursor produced elements]
  exact forall_le_iff_getLast? ((pairwise_locate cursor produced elements).imp And.left) hcursor

theorem forall_outputEnd_le_iff {produced bound : Nat} (cursor : Nat) (elements : List Element)
    (hproduced : produced ≤ bound) :
    (∀ record ∈ locate cursor produced elements, record.outputEnd ≤ bound) ↔
      produced + Element.totalLength elements ≤ bound := by
  rw [← outputEnd_getLast?_locate cursor produced elements]
  exact forall_le_iff_getLast? ((pairwise_locate cursor produced elements).imp And.right) hproduced

/-- One parse is stricter than another: what opens its input is what opens the
other's and has no record but those to be kept. Then it finds the same elements
as the other, up to the first whose record is not to be kept. -/
theorem locate_parse_eq_takeWhile {cursor produced produced' budget budget' : Nat}
    {input input' : List UInt8} {keeps : Record → Bool}
    (hstricter : ∀ elements, Element.Opens produced' budget' input' elements ↔
      Element.Opens produced budget input elements ∧
        ∀ record ∈ locate cursor produced elements, keeps record = true) :
    locate cursor produced (Element.parse produced' budget' input') =
      (locate cursor produced (Element.parse produced budget input)).takeWhile keeps := by
  obtain ⟨hopens, hkept⟩ := (hstricter _).1 (Element.opens_parse produced' budget' input')
  obtain ⟨back, hback⟩ := hopens.isPrefix_parse
  rw [← hback, locate_append, List.takeWhile_append_of_pos hkept]
  cases back with
  | nil => rw [locate, List.takeWhile_nil, List.append_nil]
  | cons element back =>
    rw [locate, List.takeWhile_cons_of_neg, List.append_nil]
    -- With the next element kept as well, the stricter parse would not have stopped
    -- before it.
    intro hkeeps
    have hwhole := Element.opens_parse produced budget input
    rw [← hback, List.append_cons] at hwhole
    have hall : ∀ record ∈ locate cursor produced
        (Element.parse produced' budget' input' ++ [element]), keeps record = true := by
      rw [locate_append]
      intro record hrecord
      rcases List.mem_append.1 hrecord with hbefore | hlast
      · exact hkept record hbefore
      · rwa [List.mem_singleton.1 hlast]
    have hlonger := ((hstricter _).2 ⟨hwhole.of_append, hall⟩).isPrefix_parse.length_le
    rw [List.length_append, List.length_singleton] at hlonger
    omega

end Snappy
