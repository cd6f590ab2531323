import WireSchema.Record
import WireSchema.Text.Quoted

/-! Arguments of the command line, read as an invocation. An option is long or short, and takes
no value, one value, or values up to the next option. -/

namespace WireSchema.CommandLine

structure Input where
  patterns : List String
  /-- A query that each document goes through first. -/
  query : Option String
  deriving DecidableEq, Repr

structure GenerateSettings where
  input : Input
  /-- A directory; without one, all source goes to the output. -/
  out : Option String
  runtimePath : String
  sequential : Bool
  /-- Only shows the settings. -/
  dry : Bool
  deriving DecidableEq, Repr

inductive Command where
  | generate (settings : GenerateSettings)
  | layout (input : Input) (typeName : Option String)
  | decode (input : Input) (typeName hex : String)
  | encode (input : Input) (typeName json : String)
  deriving DecidableEq, Repr

structure Invocation where
  verbose : Bool
  command : Command
  deriving DecidableEq, Repr

inductive Stop where
  | usage
  | help
  | version
  deriving DecidableEq, Repr

/-! ## Options -/

inductive Arity where
  | flag
  | one
  | many
  /-- Ends the reading at once. -/
  | stop (stop : Stop)
  deriving DecidableEq, Repr

structure OptionSpec where
  name : String
  short : Option Char
  arity : Arity
  deriving DecidableEq, Repr

def commonSpecs : List OptionSpec :=
  [⟨"verbose", some 'v', .flag⟩, ⟨"help", some 'h', .stop .help⟩]

def mainSpecs : List OptionSpec :=
  commonSpecs ++ [⟨"version", some 'V', .stop .version⟩]

def inputSpecs : List OptionSpec :=
  commonSpecs ++ [⟨"jq-expr", none, .one⟩, ⟨"input", some 'i', .many⟩]

def generateSpecs : List OptionSpec :=
  inputSpecs ++ [⟨"out", some 'o', .one⟩, ⟨"runtime-path", none, .one⟩,
    ⟨"no-parallel", none, .flag⟩, ⟨"no-op", none, .flag⟩]

def typeSpec : OptionSpec := ⟨"type", none, .one⟩

structure Reading where
  values : Record (List String)
  /-- An option that takes the values to come, and whether it has one. -/
  pending : Option (OptionSpec × Bool)
  deriving Repr

namespace Reading

def start : Reading := ⟨[], none⟩

/-- Adds values; only an option for many may be given again. -/
def add (r : Reading) (spec : OptionSpec) (values : List String) : Except Stop Reading :=
  match Record.get? r.values spec.name with
  | none => .ok { r with values := r.values.insert spec.name values }
  | some old =>
    if spec.arity = .many then
      .ok { r with values := r.values.insert spec.name (old ++ values) }
    else .error .usage

def close (r : Reading) : Except Stop Reading :=
  match r.pending with
  | some (_, false) => .error .usage
  | _ => .ok { r with pending := none }

def take (r : Reading) (spec : OptionSpec) : Except Stop Reading :=
  match spec.arity with
  | .stop stop => .error stop
  | .flag => r.add spec []
  | .one | .many => .ok { r with pending := some (spec, false) }

def takeWith (r : Reading) (spec : OptionSpec) (value : String) : Except Stop Reading :=
  match spec.arity with
  | .one | .many => r.add spec [value]
  | _ => .error .usage

def long (r : Reading) (specs : List OptionSpec) (text : List Char) : Except Stop Reading :=
  let name := String.ofList (text.takeWhile (· ≠ '='))
  match specs.find? (·.name = name), text.dropWhile (· ≠ '=') with
  | none, _ => .error .usage
  | some spec, [] => r.take spec
  | some spec, _ :: value => r.takeWith spec (String.ofList value)

/-- Short options in one argument; after one that takes values comes its value. -/
def short (r : Reading) (specs : List OptionSpec) : List Char → Except Stop Reading
  | [] => .ok r
  | c :: rest =>
    match specs.find? (·.short = some c) with
    | none => .error .usage
    | some spec =>
      if spec.arity = .one || spec.arity = .many then
        match rest with
        | [] => r.take spec
        | '=' :: value => r.takeWith spec (String.ofList value)
        | value => r.takeWith spec (String.ofList value)
      else do (← r.take spec).short specs rest

def value (r : Reading) (spec : OptionSpec) (text : String) : Except Stop Reading := do
  let r ← r.add spec [text]
  return { r with pending := if spec.arity = .many then some (spec, true) else none }

def options (specs : List OptionSpec) : Reading → List String →
    Except Stop (Reading × List String)
  | r, [] => do return (← r.close, [])
  | r, arg :: rest =>
    match arg.toList, r.pending with
    | ['-', '-'], _ => do
      let r ← r.close
      if rest.isEmpty then return (r, []) else throw .usage
    | '-' :: '-' :: text, _ => do options specs (← (← r.close).long specs text) rest
    | '-' :: c :: text, _ => do options specs (← (← r.close).short specs (c :: text)) rest
    | _, some (spec, _) => do options specs (← r.value spec arg) rest
    | _, none => .ok (r, arg :: rest)

def has (r : Reading) (name : String) : Bool :=
  (Record.get? r.values name).isSome

def all (r : Reading) (name : String) : List String :=
  (Record.get? r.values name).getD []

def optional (r : Reading) (name : String) : Option String :=
  (r.all name).head?

def required (r : Reading) (name : String) : Except Stop String :=
  match r.optional name with
  | some value => .ok value
  | none => .error .usage

end Reading

/-! ## Commands -/

def commandOptions (specs : List OptionSpec) (args : List String) : Except Stop Reading := do
  match ← Reading.start.options specs args with
  | (r, []) => return r
  | _ => throw .usage

def readInput (r : Reading) : Except Stop Input :=
  if r.has "input" then .ok ⟨r.all "input", r.optional "jq-expr"⟩ else .error .usage

def readGenerate (r : Reading) : Except Stop Command := do
  if r.optional "out" = some "" then throw .usage
  return .generate {
    input := ← readInput r
    out := r.optional "out"
    runtimePath := (r.optional "runtime-path").getD "idl_typegen::runtime"
    sequential := r.has "no-parallel"
    dry := r.has "no-op" }

def readCommand (name : String) (args : List String) : Except Stop (Bool × Command) := do
  match name with
  | "generate" =>
    let r ← commandOptions generateSpecs args
    return (r.has "verbose", ← readGenerate r)
  | "layout" =>
    let r ← commandOptions (inputSpecs ++ [typeSpec]) args
    return (r.has "verbose", .layout (← readInput r) (r.optional "type"))
  | "decode" =>
    let r ← commandOptions (inputSpecs ++ [typeSpec, ⟨"hex", none, .one⟩]) args
    return (r.has "verbose", .decode (← readInput r) (← r.required "type") (← r.required "hex"))
  | "encode" =>
    let r ← commandOptions (inputSpecs ++ [typeSpec, ⟨"json", none, .one⟩]) args
    return (r.has "verbose", .encode (← readInput r) (← r.required "type") (← r.required "json"))
  | "help" => throw .help
  | _ => throw .usage

def Invocation.ofArguments (args : List String) : Except Stop Invocation := do
  match ← Reading.start.options mainSpecs args with
  | (r, name :: rest) =>
    let (verbose, command) ← readCommand name rest
    return ⟨r.has "verbose" || verbose, command⟩
  | (_, []) => throw .usage

/-! ## Settings shown -/

/-- A value with parts on lines of their own, each one level deeper than the value. -/
inductive Shown where
  | atom (text : String)
  | group (left right : String) (parts : List (String × Shown))

mutual

def Shown.render (indent : String) : Shown → String
  | .atom text => text
  | .group left right parts =>
    left ++ "\n" ++ Shown.renderParts (indent ++ "    ") parts ++ indent ++ right
termination_by structural shown => shown

def Shown.renderParts (indent : String) : List (String × Shown) → String
  | [] => ""
  | (label, shown) :: rest =>
    indent ++ label ++ Shown.render indent shown ++ ",\n" ++ Shown.renderParts indent rest
termination_by structural parts => parts

end

namespace Shown

def bool (b : Bool) : Shown := atom (if b then "true" else "false")

def text (s : String) : Shown := atom (Quoted.quote s)

def optional : Option String → Shown
  | none => atom "None"
  | some s => group "Some(" ")" [("", text s)]

def record (name : String) (members : List (String × Shown)) : Shown :=
  group (name ++ " \x7b") "\x7d" (members.map fun member => (member.1 ++ ": ", member.2))

def input (input : Input) : Shown :=
  record "InputSettings" [
    ("jq_expr", optional input.query),
    ("input", group "[" "]" (input.patterns.map fun pattern => ("", text pattern)))]

def generate (verbose : Bool) (settings : GenerateSettings) : Shown :=
  record "CommandLineInterface" [
    ("verbose", bool verbose),
    ("cmd", group "Generate(" ")" [("", record "GenerateOut" [
      ("input_settings", input settings.input),
      ("out", optional settings.out),
      ("runtime_path", text settings.runtimePath),
      ("no_parallel", bool settings.sequential),
      ("no_op", bool settings.dry)])])]

end Shown

end WireSchema.CommandLine
