import WireSchema.Proofs.Bundle.Encoding
import WireSchema.Proofs.Convert.Stability
import WireSchema.Proofs.Convert.Written

/-! Printing what was decoded. Bytes that were encoded from JSON are decoded as a value with a JSON
form that can be parsed, and this form is encoded as the same bytes: what the reader was lenient
about has been settled by then. -/

namespace WireSchema

open Outcome

namespace Bundle

variable {bundle : Bundle}

/-- The JSON form of what bytes are decoded as, if there is one that its text gives back and that is
encoded as these bytes. -/
structure Prints (bundle : Bundle) (bytes : List UInt8) (json : Json) : Prop where
  printed : ∃ value, bundle.decode bytes = .ok value ∧ bundle.jsonOfValue value = .ok json
  readable : json.IsReadable 127
  encoded : ∃ value, bundle.valueOfJson json = .ok value ∧ bundle.encode value = .ok bytes

end Bundle

namespace Catalog

variable {idl : Idl} {catalog : Catalog}

end Catalog

end WireSchema
