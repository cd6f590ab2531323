import WireSchema.CommandLine.Arguments
import WireSchema.CommandLine.Error
import WireSchema.Rendering.Package
import WireSchema.Schema.Loader

/-! Commands: emitting source, showing layouts, and converting between bytes and JSON. -/

namespace WireSchema.CommandLine

structure Output where
  stdout : String
  stderr : String
  deriving DecidableEq, Repr

def Output.text (text : String) : Output := ⟨text, ""⟩

variable {m : Type → Type} [Monad m]

abbrev Action (m : Type → Type) := ExceptT CommandError m

def attempt (result : Except ε α) (cause : ε → Cause) (activity : Option Activity) : Action m α :=
  ExceptT.mk (pure (result.mapError fun error => ⟨activity, cause error⟩))

/-! ## Input -/

def isPattern (text : String) : Bool :=
  text.toList.any ['*', '?', '[', '\x7b'].contains

def filesOf (host : Host m) (text : String) : Action m (List String) := do
  if isPattern text then
    let files ← attempt (← host.files text) .pattern (some .findInput)
    if files.isEmpty then throw ⟨some .findInput, .noFiles text⟩
    return files
  else return [text]

def readSource (host : Host m) (path : String) : Action m String := do
  if path = "-" then host.standardInput
  else attempt (← host.readFile path) .file (some (.readFile path))

def loadFile (host : Host m) (query : Option String) (path : String) : Action m Idl := do
  let source ← readSource host path
  let document ← attempt (Json.parse source) .json (some (.parseFile path))
  let document ← match query with
    | none => pure document
    | some query => attempt (Query.single query document) .query (some (.applyQuery path))
  attempt (Idl.ofJson document) .schema (some (.loadFile path))

/-- The types of all files together, and what else the first one says. -/
def mergeIdls : List Idl → Idl
  | [] => ⟨none, none, []⟩
  | first :: rest => { first with types := first.types ++ rest.flatMap Idl.types }

def loadCatalog (host : Host m) (input : Input) : Action m Catalog := do
  let files ← input.patterns.mapM (filesOf host)
  let idls ← files.flatten.mapM (loadFile host input.query)
  attempt (Catalog.ofIdl (mergeIdls idls)) .schema (some .checkTypes)

def loadBundle (host : Host m) (input : Input) (typeName : String) : Action m Bundle := do
  attempt ((← loadCatalog host input).bundle typeName) .schema none

/-! ## Commands -/

def writeFiles (host : Host m) (directory : String) (files : List (String × String)) :
    Action m Unit := do
  let activity := some (Activity.writeFiles directory)
  attempt (← host.makeDirectories directory) .file activity
  files.forM fun file => do
    attempt (← host.writeFile (joinFile directory file.1) file.2) .file activity

def generate (host : Host m) (verbose : Bool) (settings : GenerateSettings) : Action m Output := do
  if settings.dry then
    return ⟨"", (Shown.generate verbose settings).render "" ++ "\n"⟩
  let catalog ← loadCatalog host settings.input
  let package ← attempt (catalog.render ⟨settings.runtimePath⟩) .schema (some .render)
  match settings.out with
  | none => return .text (package.singleSource.render ++ "\n")
  | some directory =>
    writeFiles host directory package.files
    return ⟨"", s!"wrote {package.files.length} files for {package.modules.length} types" ++
      s!" in {directory}\n"⟩

def layout (host : Host m) (input : Input) (typeName : Option String) : Action m Output := do
  let catalog ← loadCatalog host input
  let json ← match typeName with
    | none => pure catalog.registry.toJson
    | some name => do
      let bundle ← attempt (catalog.bundle name) .schema none
      pure bundle.layout.toJson
  return .text (json.pretty ++ "\n")

def dropMarks : List Char → List Char
  | '0' :: 'x' :: rest => dropMarks rest
  | text => text

def decode (host : Host m) (input : Input) (typeName hex : String) : Action m Output := do
  let bundle ← loadBundle host input typeName
  let digits := String.ofList (dropMarks (Blank.trimmed hex.toList))
  let bytes ← attempt (Hex.decode digits) .hex (some .readHex)
  let value ← attempt (bundle.decode bytes) .transfer (some (.decode bundle.name))
  let json ← attempt (bundle.jsonOfValue value) .convert none
  return .text (json.pretty ++ "\n")

def encode (host : Host m) (input : Input) (typeName json : String) : Action m Output := do
  let bundle ← loadBundle host input typeName
  let document ← attempt (Json.parse json) .json (some .readJson)
  let value ← attempt (bundle.valueOfJson document) .convert (some (.convertJson bundle.name))
  let bytes ← attempt (bundle.encode value) .transfer (some (.encode bundle.name))
  return .text (Hex.encode bytes ++ "\n")

def Invocation.run (host : Host m) (invocation : Invocation) : Action m Output :=
  match invocation.command with
  | .generate settings => generate host invocation.verbose settings
  | .layout input typeName => layout host input typeName
  | .decode input typeName hex => decode host input typeName hex
  | .encode input typeName json => encode host input typeName json

/-! ## Whole runs -/

inductive Ending where
  | stopped (stop : Stop)
  | failed (error : CommandError)
  | finished (output : Output)
  deriving DecidableEq, Repr

def usage : String :=
  "Usage: idl-typegen [-v] <generate|layout|decode|encode> --input <INPUT>... [OPTIONS]\n"

def version : String := "idl-typegen 0.1.0\n"

namespace Ending

def code : Ending → Nat
  | stopped .usage => 2
  | failed _ => 1
  | _ => 0

def output : Ending → Output
  | stopped .usage => ⟨"", usage⟩
  | stopped .help => .text usage
  | stopped .version => .text version
  | failed error => ⟨"", error.report⟩
  | finished output => output

end Ending

def run (host : Host m) (args : List String) : m Ending := do
  match Invocation.ofArguments args with
  | .error stop => return .stopped stop
  | .ok invocation =>
    match ← (invocation.run host).run with
    | .ok output => return .finished output
    | .error error => return .failed error

end WireSchema.CommandLine
