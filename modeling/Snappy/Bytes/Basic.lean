namespace Snappy

/-- A run of bytes, indexed by position. -/
abbrev Bytes := Array UInt8

/-- Splits off the first `n` items, or fails if there are fewer. -/
def splitAt? {α : Type} (n : Nat) (items : List α) : Option (List α × List α) :=
  if n ≤ (items.take n).length then some (items.take n, items.drop n) else none

/-- Splitting succeeds exactly on a list that begins with a part of the wanted
length, and returns that part with what follows it. -/
theorem splitAt?_eq_some_iff {α : Type} {n : Nat} {items front rest : List α} :
    splitAt? n items = some (front, rest) ↔ front.length = n ∧ items = front ++ rest := by
  unfold splitAt?
  constructor
  · intro h
    split at h
    · rename_i hlength
      simp only [Option.some.injEq, Prod.mk.injEq] at h
      obtain ⟨rfl, rfl⟩ := h
      simp only [List.length_take] at hlength
      exact ⟨by simp only [List.length_take]; omega, (List.take_append_drop n items).symm⟩
    · cases h
  · rintro ⟨rfl, rfl⟩
    simp

theorem splitAt?_eq_ite {α : Type} (n : Nat) (items : List α) :
    splitAt? n items = if n ≤ items.length then some (items.take n, items.drop n) else none := by
  have hlength : n ≤ (items.take n).length ↔ n ≤ items.length := by
    rw [List.length_take]
    omega
  simp only [splitAt?, hlength]

theorem splitAt?_append {α : Type} (front rest : List α) :
    splitAt? front.length (front ++ rest) = some (front, rest) :=
  splitAt?_eq_some_iff.2 ⟨rfl, rfl⟩

theorem length_le_of_splitAt? {α : Type} {n : Nat} {items front rest : List α}
    (hsplit : splitAt? n items = some (front, rest)) : rest.length ≤ items.length := by
  obtain ⟨-, rfl⟩ := splitAt?_eq_some_iff.1 hsplit
  rw [List.length_append]
  omega

/-- The items from `start` on, `length` of them, if they all exist. -/
def slice? {α : Type} (items : Array α) (start length : Nat) : Option (Array α) :=
  if start + length ≤ items.size then some (items.extract start (start + length)) else none

theorem slice?_eq_some_iff {α : Type} {items part : Array α} {start length : Nat} :
    slice? items start length = some part ↔
      start + length ≤ items.size ∧ part = items.extract start (start + length) := by
  unfold slice?
  split
  · rename_i hfits
    simp [hfits, eq_comm]
  · rename_i hfits
    simp [hfits]

end Snappy
