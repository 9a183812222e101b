namespace Snappy

/-- The code that tells how wide a symbol is. Two bits that start with a clear
one stand for a symbol of two bytes, three bits that start with a set one for
a symbol of three bytes. The bits after the first are the symbol's own. -/
inductive WidthCode where
  | narrow (first : Bool)
  | wide (first second : Bool)
  deriving DecidableEq, Repr

namespace WidthCode

def isWide : WidthCode → Bool
  | .narrow _ => false
  | .wide _ _ => true

/-- How many bits the code takes. -/
def size : WidthCode → Nat
  | .narrow _ => 2
  | .wide _ _ => 3

/-- How many bits a code takes that begins with the given bit. -/
def announcedSize (first : Bool) : Nat := if first then 3 else 2

theorem size_eq_announcedSize (code : WidthCode) : code.size = announcedSize code.isWide := by
  cases code <;> rfl

/-- The bits of the code, first bit first. -/
def encode : WidthCode → List Bool
  | .narrow first => [false, first]
  | .wide first second => [true, first, second]

@[simp]
theorem length_encode (code : WidthCode) : code.encode.length = code.size := by
  cases code <;> rfl

def encodeAll (codes : List WidthCode) : List Bool := codes.flatMap encode

@[simp]
theorem encodeAll_nil : encodeAll [] = [] := rfl

@[simp]
theorem encodeAll_cons (code : WidthCode) (codes : List WidthCode) :
    encodeAll (code :: codes) = code.encode ++ encodeAll codes := rfl

@[simp]
theorem encodeAll_append (front back : List WidthCode) :
    encodeAll (front ++ back) = encodeAll front ++ encodeAll back := by
  simp [encodeAll]

/-- Reads the given number of codes, and returns what follows them. -/
def readAll? : (count : Nat) → (bits : List Bool) → Option (List WidthCode × List Bool)
  | 0, bits => some ([], bits)
  | count + 1, false :: first :: bits =>
    (readAll? count bits).map fun (codes, rest) => (.narrow first :: codes, rest)
  | count + 1, true :: first :: second :: bits =>
    (readAll? count bits).map fun (codes, rest) => (.wide first second :: codes, rest)
  | _ + 1, _ => none

/-- Bits that no code begins are none, or too few for the code that the first of them
announces. -/
theorem short_of_no_code {bits : List Bool}
    (hnarrow : ∀ first rest, bits = false :: first :: rest → False)
    (hwide : ∀ first second rest, bits = true :: first :: second :: rest → False) :
    bits = [] ∨ ∃ first behind, bits = first :: behind ∧ behind.length + 1 < announcedSize first := by
  match bits with
  | [] => exact .inl rfl
  | [false] => exact .inr ⟨false, [], rfl, by decide⟩
  | [true] => exact .inr ⟨true, [], rfl, by decide⟩
  | false :: first :: rest => exact absurd rfl (hnarrow first rest)
  | [true, first] => exact .inr ⟨true, [first], rfl, Nat.lt_succ_self 2⟩
  | true :: first :: second :: rest => exact absurd rfl (hwide first second rest)

/-- Reading succeeds exactly on bits that begin with so many codes, and loses
nothing of them. -/
theorem readAll?_eq_some_iff {count : Nat} {bits rest : List Bool} {codes : List WidthCode} :
    readAll? count bits = some (codes, rest) ↔
      codes.length = count ∧ bits = encodeAll codes ++ rest := by
  constructor
  · intro hread
    fun_induction readAll? count bits generalizing codes with
    | case1 => simp_all
    | case2 count first bits ih =>
      obtain ⟨⟨inner, tail⟩, hinner, hcodes⟩ := Option.map_eq_some_iff.1 hread
      cases hcodes
      obtain ⟨hlength, rfl⟩ := ih hinner
      exact ⟨by simp [hlength], by simp [encode]⟩
    | case3 count first second bits ih =>
      obtain ⟨⟨inner, tail⟩, hinner, hcodes⟩ := Option.map_eq_some_iff.1 hread
      cases hcodes
      obtain ⟨hlength, rfl⟩ := ih hinner
      exact ⟨by simp [hlength], by simp [encode]⟩
    | case4 => simp at hread
  · rintro ⟨rfl, rfl⟩
    induction codes with
    | nil => rfl
    | cons code codes ih => cases code <;> simp [encode, readAll?, ih]

end WidthCode

end Snappy
