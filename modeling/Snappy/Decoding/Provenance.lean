import Snappy.Decoding.Basic
import Snappy.Symbol.Expansion

namespace Snappy

/-- Adds the stream positions from which the symbol's items come to those from
which the output before it comes. A literal's items come from its payload. An
item that is copied comes from where the item it repeats comes from. -/
def Symbol.appendSources (sources : Array Nat) : Symbol → Array Nat
  | .literal length start => sources ++ Array.range' start length
  | .copy length offset => appendCopy offset length sources

def sourcesAfter (sources : Array Nat) (records : List Record) : Array Nat :=
  records.foldl (fun sources record => record.symbol.appendSources sources) sources

@[simp]
theorem sourcesAfter_nil (sources : Array Nat) : sourcesAfter sources [] = sources := rfl

@[simp]
theorem sourcesAfter_cons (sources : Array Nat) (record : Record) (records : List Record) :
    sourcesAfter sources (record :: records) =
      sourcesAfter (record.symbol.appendSources sources) records := rfl

namespace Decoding

/-- For each position of the output, the stream position from which its item
comes. Copies, and copies of copies, are followed back to a literal. -/
def sources (decoding : Decoding) : Array Nat := sourcesAfter #[] decoding.records

/-- The payloads of all literals lie within a stream of the given size. -/
def FitsIn (decoding : Decoding) (size : Nat) : Prop :=
  ∀ record ∈ decoding.records, record.symbol.FitsIn size

instance decidableFitsIn (decoding : Decoding) (size : Nat) : Decidable (decoding.FitsIn size) :=
  inferInstanceAs (Decidable (∀ record ∈ decoding.records, record.symbol.FitsIn size))

end Decoding

end Snappy
