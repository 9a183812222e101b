import Snappy.Block.Decompression
import Snappy.Proofs.Decoding.Expansion
import Snappy.Proofs.Decoding.Records
import Snappy.Proofs.Header.Reading

namespace Snappy

/-- The elements make up the body of a block: they give its bytes, each of them
can be written where it stands, and together they have the declared length. -/
structure Element.Fills (length : Nat) (body : List UInt8) (elements : List Element) : Prop where
  sound : Sound 0 elements
  totalLength_eq : totalLength elements = length
  encodeAll_eq : encodeAll elements = body

namespace Element

theorem fills_iff {length : Nat} {body : List UInt8} {elements : List Element} :
    Fills length body elements ↔
      Sound 0 elements ∧ totalLength elements = length ∧ encodeAll elements = body :=
  ⟨fun ⟨hsound, htotal, hbody⟩ => ⟨hsound, htotal, hbody⟩,
    fun ⟨hsound, htotal, hbody⟩ => ⟨hsound, htotal, hbody⟩⟩

instance decidableFills (length : Nat) (body : List UInt8) (elements : List Element) :
    Decidable (Fills length body elements) := decidable_of_iff' _ fills_iff

theorem Fills.opens {length : Nat} {body : List UInt8} {elements : List Element}
    (hfills : Fills length body elements) : Opens 0 length body elements :=
  ⟨hfills.sound, Nat.le_of_eq hfills.totalLength_eq, hfills.encodeAll_eq ▸ List.prefix_rfl⟩

/-- A body that continues another one and has the same length is the same body,
made up of the same elements. -/
theorem Fills.eq_of_isPrefix {length : Nat} {body longer : List UInt8}
    {elements elements' : List Element} (hfills : Fills length body elements)
    (hfills' : Fills length longer elements') (hlonger : body <+: longer) : body = longer := by
  have htotal : totalLength elements = totalLength elements' :=
    hfills.totalLength_eq.trans hfills'.totalLength_eq.symm
  have helements := (hfills.opens.extend hlonger).eq_of_totalLength_eq hfills'.opens htotal
  rw [← hfills.encodeAll_eq, ← hfills'.encodeAll_eq, helements]

theorem Fills.length_expandAll {length : Nat} {body : List UInt8} {elements : List Element}
    (hfills : Fills length body elements) : (expandAll [] elements).length = length := by
  have hempty : Sound ([] : List UInt8).length elements := hfills.sound
  rw [Element.length_expandAll hempty, List.length_nil, Nat.zero_add, hfills.totalLength_eq]

end Element

theorem size_of_toList_append {block : Bytes} {front back : List UInt8}
    (hblock : block.toList = front ++ back) : block.size = front.length + back.length := by
  rw [← block.length_toList, hblock, List.length_append]

theorem decompress_of_read_error {block : Bytes} {error : Error}
    (hread : Header.read block = .error error) : decompress block = .error error := by
  rw [decompress, hread]
  rfl

theorem decompress_of_decode {block : Bytes} {header : Header} {decoding : Decoding}
    (hread : Header.read block = .ok header)
    (hdecode : decode block header.length header.width = .ok decoding) :
    decompress block =
      if decoding.isComplete ∧ decoding.endCursor?.getD header.width = block.size then
        decoding.expand block
      else .error .corrupt := by
  have hsteps : decompress block = (Header.read block >>= fun header =>
      decode block header.length header.width >>= fun decoding =>
        if decoding.isComplete ∧ decoding.endCursor?.getD header.width = block.size then
          decoding.expand block
        else .error .corrupt) := rfl
  rw [hsteps, hread]
  change (decode block header.length header.width >>= _) = _
  rw [hdecode]
  rfl

/-- The two checks behind a decoding ask that its elements leave nothing of the
length and nothing of the bytes. -/
theorem complete_and_ended_iff_fills {block : Bytes} {header body : List UInt8} {length : Nat}
    {elements : List Element} (hblock : block.toList = header ++ body)
    (hopens : Element.Opens 0 length body elements) :
    ((Decoding.mk (locate header.length 0 elements) length
          (hopens.continues header.length)).isComplete = true ∧
        (Decoding.mk (locate header.length 0 elements) length
          (hopens.continues header.length)).endCursor?.getD header.length = block.size) ↔
      Element.Fills length body elements := by
  rw [Decoding.isComplete_locate_iff, Decoding.endCursor?_locate, size_of_toList_append hblock,
    Nat.add_left_cancel_iff, Element.fills_iff]
  constructor
  · rintro ⟨htotal, hend⟩
    exact ⟨hopens.sound, htotal, hopens.encoded.eq_of_length hend⟩
  · rintro ⟨-, htotal, hend⟩
    exact ⟨htotal, congrArg List.length hend⟩

/-- Behind a header, decompression comes down to whether the parse of the body
fills it. -/
theorem decompress_eq_ite {block : Bytes} {header body : List UInt8} {length : Nat}
    (hdeclares : Header.Declares header length) (hblock : block.toList = header ++ body) :
    decompress block =
      if Element.Fills length body (Element.parse 0 length body) then
        .ok (Element.expandAll [] (Element.parse 0 length body)).toArray
      else .error .corrupt := by
  have hread := Header.read_of_declares hdeclares ⟨body, hblock.symm⟩
  have hbody : block.toList.drop header.length = body := by rw [hblock, List.drop_left]
  have hstart : header.length ≤ block.size := by
    rw [size_of_toList_append hblock]
    omega
  have hopens := Element.opens_parse 0 length body
  have hat : Element.encodeAll (Element.parse 0 length body) <+: block.toList.drop header.length := by
    rw [hbody]
    exact hopens.encoded
  have hdecode : decode block length header.length =
      .ok ⟨locate header.length 0 (Element.parse 0 length body), length, hopens.continues _⟩ :=
    decode_eq_ok_of_parse hstart (by rw [hbody]) _
  rw [decompress_of_decode hread hdecode]
  simp only [complete_and_ended_iff_fills hblock hopens]
  rw [Decoding.expand_locate _ hopens.sound hat]

theorem decompress_eq_ok_of_fills {block : Bytes} {header body : List UInt8} {length : Nat}
    {elements : List Element} (hdeclares : Header.Declares header length)
    (hblock : block.toList = header ++ body) (hfills : Element.Fills length body elements) :
    decompress block = .ok (Element.expandAll [] elements).toArray := by
  have hparse := hfills.opens.parse_eq hfills.totalLength_eq
  rw [decompress_eq_ite hdeclares hblock, hparse, if_pos hfills]

theorem decompress_eq_corrupt {block : Bytes} {header body : List UInt8} {length : Nat}
    (hdeclares : Header.Declares header length) (hblock : block.toList = header ++ body)
    (hnone : ∀ elements, ¬ Element.Fills length body elements) :
    decompress block = .error .corrupt := by
  rw [decompress_eq_ite hdeclares hblock, if_neg (hnone _)]

/-- Cutting a header off leaves no byte that could end one. -/
theorem decompress_eq_unterminated {block : Bytes} {header : List UInt8} {length k : Nat}
    (hdeclares : Header.Declares header length) (hk : k < header.length)
    (hblock : block.toList = header.take k) : decompress block = .error .headerUnterminated := by
  apply decompress_of_read_error
  apply Header.read_eq_unterminated
  intro byte hbyte
  rw [hblock] at hbyte
  exact hdeclares.ended.continued_of_mem_take hk byte (List.mem_of_mem_take hbyte)

/-- Where elements fill a body of the declared length, neither what begins that
body nor what continues it is one of the same length. -/
theorem decompress_eq_corrupt_of_ne {block : Bytes} {header body other : List UInt8} {length : Nat}
    {elements : List Element} (hdeclares : Header.Declares header length)
    (hfills : Element.Fills length body elements) (hblock : block.toList = header ++ other)
    (hcomparable : other <+: body ∨ body <+: other) (hne : other ≠ body) :
    decompress block = .error .corrupt := by
  apply decompress_eq_corrupt hdeclares hblock
  intro others hothers
  apply hne
  rcases hcomparable with hshorter | hlonger
  · exact hothers.eq_of_isPrefix hfills hshorter
  · exact (hfills.eq_of_isPrefix hothers hlonger).symm

/-- Behind a header, a block is accepted for no other reason than that elements
fill its body, and its output is what they expand to. -/
theorem fills_of_decompress {block output : Bytes} {header body : List UInt8} {length : Nat}
    (hdeclares : Header.Declares header length) (hblock : block.toList = header ++ body)
    (hok : decompress block = .ok output) :
    ∃ elements, Element.Fills length body elements ∧ output.toList = Element.expandAll [] elements := by
  rw [decompress_eq_ite hdeclares hblock] at hok
  split at hok
  · rename_i hfills
    cases hok
    exact ⟨_, hfills, rfl⟩
  · cases hok

/-- How an accepted block is made up. -/
theorem exists_fills_of_decompress {block output : Bytes} (hok : decompress block = .ok output) :
    ∃ header body elements, block.toList = header ++ body ∧
      Header.Declares header output.size ∧ Element.Fills output.size body elements ∧
      output.toList = Element.expandAll [] elements := by
  cases hread : Header.read block with
  | error error =>
    rw [decompress_of_read_error hread] at hok
    cases hok
  | ok found =>
    obtain ⟨header, body, hblock, hdeclares, -⟩ := Header.declares_of_read hread
    obtain ⟨elements, hfills, houtput⟩ := fills_of_decompress hdeclares hblock hok
    have hsize : output.size = found.length := by
      rw [← output.length_toList, houtput, hfills.length_expandAll]
    rw [← hsize] at hdeclares hfills
    exact ⟨header, body, elements, hblock, hdeclares, hfills, houtput⟩

end Snappy
