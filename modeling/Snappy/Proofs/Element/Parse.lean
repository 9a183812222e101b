import Snappy.Proofs.Element.Reading

namespace Snappy.Element

/-- The elements stand at the front of the input, one after the other. Behind
`produced` bytes of output each of them can be written, and together they are
not longer than the budget. -/
structure Opens (produced budget : Nat) (input : List UInt8) (elements : List Element) : Prop where
  sound : Sound produced elements
  length_le : totalLength elements ≤ budget
  encoded : encodeAll elements <+: input

/-- The elements with which the input begins, up to the first that is longer
than what is left of the budget or that reaches before the output. No position
in a stream enters into it. -/
def parse (produced budget : Nat) (input : List UInt8) : List Element :=
  match _h : read? input with
  | none => []
  | some (element, rest) =>
    if element.length ≤ budget ∧ element.Reaches produced then
      element :: parse (produced + element.length) (budget - element.length) rest
    else []
termination_by input.length
decreasing_by exact length_lt_of_read? _h

theorem parse_eq_cons {produced budget : Nat} {input rest : List UInt8} {element : Element}
    (hread : read? input = some (element, rest))
    (hadmits : element.length ≤ budget ∧ element.Reaches produced) :
    parse produced budget input =
      element :: parse (produced + element.length) (budget - element.length) rest := by
  rw [parse]
  split
  · rename_i hnone
    rw [hread] at hnone
    cases hnone
  · rename_i found tail hsome
    rw [hread] at hsome
    cases hsome
    rw [if_pos hadmits]

theorem parse_eq_nil {produced budget : Nat} {input : List UInt8}
    (hrefused : ∀ element rest, read? input = some (element, rest) →
      ¬ (element.length ≤ budget ∧ element.Reaches produced)) : parse produced budget input = [] := by
  rw [parse]
  split
  · rfl
  · rename_i element rest hread
    rw [if_neg (hrefused element rest hread)]

theorem eq_nil_of_totalLength_eq_zero {produced : Nat} {elements : List Element}
    (hsound : Sound produced elements) (hzero : totalLength elements = 0) : elements = [] := by
  cases elements with
  | nil => rfl
  | cons element elements =>
    have hpos := hsound.1.length_pos
    rw [totalLength_cons] at hzero
    omega

/-- Where elements stand in a run of bytes, the first stands there and the others
behind it. -/
theorem encodeAll_cons_isPrefix_drop {bytes : List UInt8} {cursor : Nat} {element : Element}
    {elements : List Element} (hat : encodeAll (element :: elements) <+: bytes.drop cursor) :
    element.encode <+: bytes.drop cursor ∧
      encodeAll elements <+: bytes.drop (cursor + element.width) := by
  obtain ⟨suffix, hsuffix⟩ := hat
  rw [encodeAll_cons, List.append_assoc] at hsuffix
  refine ⟨⟨_, hsuffix⟩, suffix, ?_⟩
  rw [← List.drop_drop, ← hsuffix, List.drop_left' (length_encode element)]

theorem opens_nil {produced budget : Nat} {input : List UInt8} : Opens produced budget input [] :=
  ⟨trivial, Nat.zero_le budget, List.nil_prefix⟩

/-- Opening an input is decided one element at a time, and the first element is
the one that a reader finds. -/
theorem opens_cons_iff {produced budget : Nat} {input : List UInt8} {element : Element}
    {elements : List Element} :
    Opens produced budget input (element :: elements) ↔
      ∃ rest, read? input = some (element, rest) ∧
        (element.length ≤ budget ∧ element.Reaches produced) ∧
        Opens (produced + element.length) (budget - element.length) rest elements := by
  constructor
  · rintro ⟨⟨hvalid, hreaches, hsound⟩, hlength, suffix, rfl⟩
    rw [totalLength_cons] at hlength
    refine ⟨encodeAll elements ++ suffix, ?_, ⟨by omega, hreaches⟩, hsound, by omega,
      List.prefix_append _ _⟩
    rw [encodeAll_cons, List.append_assoc]
    exact read?_encode _ hvalid
  · rintro ⟨rest, hread, ⟨hfits, hreaches⟩, hsound, hlength, suffix, rfl⟩
    obtain ⟨hvalid, rfl⟩ := encode_of_read? hread
    refine ⟨⟨hvalid, hreaches, hsound⟩, ?_, suffix, ?_⟩
    · rw [totalLength_cons]
      omega
    · rw [encodeAll_cons, List.append_assoc]

theorem opens_parse (produced budget : Nat) (input : List UInt8) :
    Opens produced budget input (parse produced budget input) := by
  fun_induction parse produced budget input with
  | case1 => exact opens_nil
  | case2 produced budget input element rest hread hadmits ih =>
    exact opens_cons_iff.2 ⟨rest, hread, hadmits, ih⟩
  | case3 => exact opens_nil

/-- Parsing never stops early: whatever opens the input is a front part of what
is parsed. -/
theorem Opens.isPrefix_parse {produced budget : Nat} {input : List UInt8} {elements : List Element}
    (hopens : Opens produced budget input elements) : elements <+: parse produced budget input := by
  induction elements generalizing produced budget input with
  | nil => exact List.nil_prefix
  | cons element elements ih =>
    obtain ⟨rest, hread, hadmits, hrest⟩ := opens_cons_iff.1 hopens
    rw [parse_eq_cons hread hadmits]
    exact (List.prefix_cons_inj element).2 (ih hrest)

theorem Opens.mono {produced few many : Nat} {input : List UInt8} {elements : List Element}
    (hopens : Opens produced few input elements) (hle : few ≤ many) :
    Opens produced many input elements :=
  ⟨hopens.sound, Nat.le_trans hopens.length_le hle, hopens.encoded⟩

theorem Opens.extend {produced budget : Nat} {input longer : List UInt8} {elements : List Element}
    (hopens : Opens produced budget input elements) (hlonger : input <+: longer) :
    Opens produced budget longer elements :=
  ⟨hopens.sound, hopens.length_le, hopens.encoded.trans hlonger⟩

/-- Whatever opens an input goes on doing so when it is broken off. -/
theorem Opens.of_append {produced budget : Nat} {input : List UInt8} {front back : List Element}
    (hopens : Opens produced budget input (front ++ back)) : Opens produced budget input front := by
  refine ⟨(sound_append.1 hopens.sound).1, ?_, ?_⟩
  · have hlength := hopens.length_le
    rw [totalLength_append] at hlength
    omega
  · have hencoded := hopens.encoded
    rw [encodeAll_append] at hencoded
    exact (List.prefix_append _ _).trans hencoded

/-- What opens the first bytes of an input is what opens the input and is written
in no more than these bytes. -/
theorem opens_take_iff {produced budget : Nat} {input : List UInt8} {elements : List Element}
    (count : Nat) :
    Opens produced budget (input.take count) elements ↔
      Opens produced budget input elements ∧ (encodeAll elements).length ≤ count := by
  constructor
  · rintro ⟨hsound, hlength, hencoded⟩
    obtain ⟨hfront, hcount⟩ := List.prefix_take_iff.1 hencoded
    exact ⟨⟨hsound, hlength, hfront⟩, hcount⟩
  · rintro ⟨⟨hsound, hlength, hfront⟩, hcount⟩
    exact ⟨hsound, hlength, List.prefix_take_iff.2 ⟨hfront, hcount⟩⟩

theorem opens_iff_of_le {produced few many : Nat} {input : List UInt8} {elements : List Element}
    (hle : few ≤ many) :
    Opens produced few input elements ↔
      Opens produced many input elements ∧ totalLength elements ≤ few :=
  ⟨fun hopens => ⟨hopens.mono hle, hopens.length_le⟩,
    fun ⟨hopens, hlength⟩ => ⟨hopens.sound, hlength, hopens.encoded⟩⟩

/-- Behind elements that open an input, parsing goes on as if it began there with
what they have produced and what they have left of the budget. -/
theorem Opens.parse_eq_append {produced budget : Nat} {input : List UInt8} {front : List Element}
    (hopens : Opens produced budget input front) :
    parse produced budget input =
      front ++ parse (produced + totalLength front) (budget - totalLength front)
        (input.drop (encodeAll front).length) := by
  induction front generalizing produced budget input with
  | nil => rfl
  | cons element front ih =>
    obtain ⟨rest, hread, hadmits, hrest⟩ := opens_cons_iff.1 hopens
    obtain ⟨-, rfl⟩ := encode_of_read? hread
    rw [parse_eq_cons hread hadmits, ih hrest, totalLength_cons, encodeAll_cons, List.length_append,
      ← List.drop_drop, List.drop_left, List.cons_append, Nat.add_assoc, Nat.sub_sub]

/-- Two lists that open one input differ only in where they end. -/
theorem Opens.comparable {produced budget budget' : Nat} {input : List UInt8}
    {elements elements' : List Element} (hopens : Opens produced budget input elements)
    (hopens' : Opens produced budget' input elements') :
    elements <+: elements' ∨ elements' <+: elements :=
  List.prefix_or_prefix_of_prefix
    (hopens.mono (Nat.le_max_left budget budget')).isPrefix_parse
    (hopens'.mono (Nat.le_max_right budget budget')).isPrefix_parse

private theorem eq_of_isPrefix {produced : Nat} {front elements : List Element}
    (hsound : Sound produced elements) (hfront : front <+: elements)
    (htotal : totalLength elements ≤ totalLength front) : front = elements := by
  obtain ⟨back, rfl⟩ := hfront
  rw [totalLength_append] at htotal
  have hback : back = [] :=
    eq_nil_of_totalLength_eq_zero (sound_append.1 hsound).2 (by omega)
  rw [hback, List.append_nil]

/-- Where a parse of an input ends in the output fixes all of its elements. -/
theorem Opens.eq_of_totalLength_eq {produced budget budget' : Nat} {input : List UInt8}
    {elements elements' : List Element} (hopens : Opens produced budget input elements)
    (hopens' : Opens produced budget' input elements')
    (htotal : totalLength elements = totalLength elements') : elements = elements' := by
  rcases hopens.comparable hopens' with hfront | hfront
  · exact eq_of_isPrefix hopens'.sound hfront (by omega)
  · exact (eq_of_isPrefix hopens.sound hfront (by omega)).symm

private theorem eq_of_isPrefix_of_encodeAll_eq {front elements : List Element}
    (hfront : front <+: elements) (hencoded : encodeAll front = encodeAll elements) :
    front = elements := by
  obtain ⟨back, rfl⟩ := hfront
  rw [encodeAll_append] at hencoded
  have hback : back = [] := encodeAll_eq_nil_iff.1 (List.append_right_eq_self.1 hencoded.symm)
  rw [hback, List.append_nil]

/-- Where a parse of an input ends in the input fixes all of its elements. -/
theorem Opens.eq_of_encodeAll_eq {produced budget budget' : Nat} {input : List UInt8}
    {elements elements' : List Element} (hopens : Opens produced budget input elements)
    (hopens' : Opens produced budget' input elements')
    (hencoded : encodeAll elements = encodeAll elements') : elements = elements' := by
  rcases hopens.comparable hopens' with hfront | hfront
  · exact eq_of_isPrefix_of_encodeAll_eq hfront hencoded
  · exact (eq_of_isPrefix_of_encodeAll_eq hfront hencoded.symm).symm

/-- A list that opens the input and leaves nothing of the budget is all that a
parse finds. -/
theorem Opens.parse_eq {produced budget : Nat} {input : List UInt8} {elements : List Element}
    (hopens : Opens produced budget input elements) (htotal : totalLength elements = budget) :
    parse produced budget input = elements := by
  have hparse := opens_parse produced budget input
  refine (eq_of_isPrefix hparse.sound hopens.isPrefix_parse ?_).symm
  rw [htotal]
  exact hparse.length_le

end Snappy.Element
