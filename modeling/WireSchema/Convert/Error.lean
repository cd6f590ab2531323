/-! What can go wrong between values, trees and JSON. -/

namespace WireSchema

inductive ConvertError where
  | shapeMismatch (path expected found : String)
  | invalidEnum (enumName reason : String)
  | unrecognizedKind (enumName kind : String)
  deriving DecidableEq, Repr

namespace ConvertError

def message : ConvertError → String
  | shapeMismatch path expected found =>
    s!"shape mismatch at `{path}`: expected {expected}, found {found}"
  | invalidEnum enumName reason => s!"invalid enum object for `{enumName}`: {reason}"
  | unrecognizedKind enumName kind => s!"unrecognized enum kind `{kind}` for `{enumName}`"

/-- A path inside an outer segment; a point goes between names. -/
def joinPath (segment path : String) : String :=
  match path.toList with
  | [] => segment
  | '[' :: _ => segment ++ path
  | _ => segment ++ "." ++ path

def within (segment : String) : ConvertError → ConvertError
  | shapeMismatch path expected found => shapeMismatch (joinPath segment path) expected found
  | error => error

end ConvertError

abbrev Convert := Except ConvertError

namespace Convert

def mismatch (path expected found : String) : Convert α :=
  .error (.shapeMismatch path expected found)

def within (segment : String) (result : Convert α) : Convert α :=
  result.mapError (ConvertError.within segment)

def atField (path name : String) : String :=
  if path = "" then name else path ++ "." ++ name

def atIndex (path : String) (position : Nat) : String :=
  path ++ "[" ++ toString position ++ "]"

end Convert

end WireSchema
