import WireSchema.Json.Parser
import WireSchema.Json.Printer
import WireSchema.Query.Evaluation
import WireSchema.Query.Parser

/-! Queries on documents. What a query yields is written as text and read back, so that it is
again a document. -/

namespace WireSchema

inductive QueryError where
  /-- The text is no query, or the query fails on the document. -/
  | failed
  | wrongCount (query : String) (count : Nat)
  deriving DecidableEq, Repr

def QueryError.message : QueryError → String
  | .failed => "query failed"
  | .wrongCount query count =>
    s!"jq filter `{query}` produced {count} documents, expected exactly one IDL"

namespace Query

/- Text has no other spelling than null for numbers that are not finite. -/
mutual

def settle : Json → Json
  | .null => .null
  | .bool b => .bool b
  | .number (.int i) => .number (.int i)
  | .number (.float x) => Json.ofFloat x
  | .string s => .string s
  | .array items => .array (settleItems items)
  | .object members => .object (settleMembers members)
termination_by structural json => json

def settleItems : List Json → List Json
  | [] => []
  | item :: rest => settle item :: settleItems rest
termination_by structural items => items

def settleMembers : List (String × Json) → List (String × Json)
  | [] => []
  | (key, value) :: rest => (key, settle value) :: settleMembers rest
termination_by structural members => members

end

def reread (json : Json) : Except QueryError Json :=
  (Json.parse (settle json).compact).mapError fun _ => .failed

def run (query : String) (document : Json) : Except QueryError (List Json) :=
  match Filter.parse? query with
  | none => .error .failed
  | some filter =>
    let outcome := filter.run [] document
    if outcome.failed then .error .failed else outcome.values.mapM reread

def single (query : String) (document : Json) : Except QueryError Json := do
  match ← run query document with
  | [json] => return json
  | results => throw (.wrongCount query results.length)

end Query

end WireSchema
