import Snappy.Decoding.Basic
import Snappy.Symbol.Expansion

namespace Snappy

variable {α : Type}

/-- Adds the items of the records' symbols to the buffer that holds the
output. Each record has to begin where the output ends. -/
def expandRecords (stream : Array α) : List Record → EStateM Error (Array α) Unit
  | [] => pure ()
  | record :: records => do
    let produced := (← get).size
    if record.outputStart = produced then
      record.symbol.expand stream
      expandRecords stream records
    else throw .corrupt

/-- The output that the decoding describes, with literals taken from the given
stream. The stream need not be the one that was decoded. -/
def Decoding.expand (decoding : Decoding) (stream : Array α) : Except Error (Array α) :=
  match (expandRecords stream decoding.records).run #[] with
  | .ok _ output => .ok output
  | .error error _ => .error error

end Snappy
