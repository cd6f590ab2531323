import WireSchema.Json.Scan.Value

/-! JSON text read as a value. Of a repeated key the first position and the last value stay. -/

namespace WireSchema.Json

def parse (text : String) : Except SyntaxError Json := do
  let (draft, rest) := Scan.scan text
  match draft.read Draft.textRoom [] with
  | .error located => throw located.cause
  | .ok json =>
    match (rest.map Scan.skipBlank).getD [] with
    | [] => return json.merge
    | _ => throw .trailingCharacters

end WireSchema.Json
