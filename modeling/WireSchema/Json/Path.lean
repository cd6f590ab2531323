/-! Places inside a JSON document, from the outermost step to the innermost one. -/

namespace WireSchema.Json

inductive Segment where
  | index (position : Nat)
  | key (name : String)
  | unknown
  deriving DecidableEq, Repr

abbrev Path := List Segment

def Segment.text : Segment → String
  | .index position => s!"[{position}]"
  | .key name => name
  | .unknown => "?"

/-- A point goes before every step but the first one and the positions in arrays. -/
def Segment.joined : Segment → String
  | .index position => s!"[{position}]"
  | segment => "." ++ segment.text

def Path.text : Path → String
  | [] => "."
  | first :: rest => first.text ++ String.join (rest.map Segment.joined)

end WireSchema.Json
