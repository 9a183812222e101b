import Snappy.Element.Encoding

namespace Snappy

/-- Appends `length` bytes one at a time, each equal to the byte `offset`
places before it. When the copy is longer than its offset, it goes on to copy
bytes that it has appended itself. -/
def copyBack (offset : Nat) : (length : Nat) → (output : List UInt8) → List UInt8
  | 0, output => output
  | length + 1, output =>
    copyBack offset length (output ++ output[output.length - offset]?.toList)

theorem length_copyBack {offset length : Nat} {output : List UInt8}
    (hpos : 1 ≤ offset) (hoffset : offset ≤ output.length) :
    (copyBack offset length output).length = output.length + length := by
  induction length generalizing output with
  | zero => rfl
  | succ length ih =>
    have hbyte : output[output.length - offset]?.toList.length = 1 := by
      rw [List.getElem?_eq_getElem (by omega)]
      rfl
    rw [copyBack, ih (by simp only [List.length_append]; omega), List.length_append, hbyte]
    omega

namespace Element

/-- The output after the element, given the output before it. -/
def expand (output : List UInt8) : Element → List UInt8
  | .literal _ payload => output ++ payload
  | .copy _ length offset => copyBack offset length output

/-- The output after all the elements, from left to right. -/
def expandAll (output : List UInt8) (elements : List Element) : List UInt8 :=
  elements.foldl expand output

@[simp]
theorem expandAll_nil (output : List UInt8) : expandAll output [] = output := rfl

@[simp]
theorem expandAll_cons (output : List UInt8) (element : Element) (elements : List Element) :
    expandAll output (element :: elements) = expandAll (element.expand output) elements := rfl

theorem expandAll_append (output : List UInt8) (front back : List Element) :
    expandAll output (front ++ back) = expandAll (expandAll output front) back := by
  simp [expandAll]

theorem length_expand {output : List UInt8} {element : Element}
    (hreaches : element.Reaches output.length) :
    (element.expand output).length = output.length + element.length := by
  cases element with
  | literal extra payload => simp [expand, length]
  | copy form length offset => exact length_copyBack hreaches.1 hreaches.2

/-- Elements that can stand behind the output add exactly their lengths to
it. -/
theorem length_expandAll {output : List UInt8} {elements : List Element}
    (hsound : Sound output.length elements) :
    (expandAll output elements).length = output.length + totalLength elements := by
  induction elements generalizing output with
  | nil => simp
  | cons element elements ih =>
    obtain ⟨-, hreaches, hrest⟩ := hsound
    have hlength := length_expand hreaches
    rw [expandAll_cons, ih (by rwa [hlength]), hlength, totalLength_cons, Nat.add_assoc]

end Element

end Snappy
