import WireSchema.Bundle
import WireSchema.CommandLine.Host
import WireSchema.Query.Run

/-! What can go wrong in a command: a cause, and what was being done. -/

namespace WireSchema.CommandLine

inductive Cause where
  | pattern (error : PatternError)
  | noFiles (text : String)
  | file (error : FileError)
  | json (error : Json.SyntaxError)
  | query (error : QueryError)
  | schema (error : SchemaError)
  | hex (fault : Hex.Fault)
  | convert (error : ConvertError)
  | transfer (error : TransferError)
  deriving DecidableEq, Repr

def Cause.message : Cause → String
  | pattern error => error.message
  | noFiles text => s!"glob pattern matched no files: {text}"
  | file error => error.message
  | json error => error.message
  | query error => error.message
  | schema error => error.message
  | hex fault => fault.message
  | convert error => error.message
  | transfer error => error.message

inductive Activity where
  | findInput
  | readFile (path : String)
  | parseFile (path : String)
  | applyQuery (path : String)
  | loadFile (path : String)
  | checkTypes
  | render
  | writeFiles (directory : String)
  | readHex
  | readJson
  | decode (typeName : String)
  | convertJson (typeName : String)
  | encode (typeName : String)
  deriving DecidableEq, Repr

def Activity.message : Activity → String
  | findInput => "failed to resolve input file paths"
  | readFile path => s!"failed to read source file ({path})"
  | parseFile path => s!"failed to parse JSON source file ({path})"
  | applyQuery path => s!"failed to apply jq expression to source file ({path})"
  | loadFile path => s!"invalid IDL ({path})"
  | checkTypes => "invalid IDL type graph"
  | render => "failed to render modules"
  | writeFiles directory => s!"failed to write modules to {directory}"
  | readHex => "invalid hex input"
  | readJson => "invalid JSON value"
  | decode typeName => s!"failed to decode `{typeName}`"
  | convertJson typeName => s!"failed to read JSON for `{typeName}`"
  | encode typeName => s!"failed to encode `{typeName}`"

structure CommandError where
  activity : Option Activity
  cause : Cause
  deriving DecidableEq, Repr

def indented (text : String) : String :=
  String.ofList <| "    ".toList ++ text.toList.flatMap fun c =>
    if c = '\n' then "\n    ".toList else [c]

def CommandError.report (error : CommandError) : String :=
  match error.activity with
  | none => s!"Error: {error.cause.message}\n"
  | some activity =>
    s!"Error: {activity.message}\n\nCaused by:\n{indented error.cause.message}\n"

end WireSchema.CommandLine
