import WireSchema.Record
import WireSchema.CommandLine.Host

/-! A host in memory: files under their names from the root, and a standard input that is read
once. -/

namespace WireSchema.CommandLine

abbrev Location := List String

structure Memory where
  files : List (Location × String)
  /-- Directories that may hold no file. -/
  directories : List Location
  input : String
  deriving Repr

namespace Memory

inductive Node where
  | file (content : String)
  | directory
  deriving DecidableEq, Repr

def components (path : String) : List String :=
  (path.toList.splitOn '/').map String.ofList

def node? (memory : Memory) (location : Location) : Option Node :=
  match memory.files.lookup location with
  | some content => some (.file content)
  | none =>
    if location.isEmpty || memory.directories.contains location ||
        memory.files.any fun file => location.isPrefixOf file.1 then some .directory
    else none

def follow (memory : Memory) : Location → List String → Except FileError (Location × Node)
  | here, [] =>
    match memory.node? here with
    | some node => .ok (here, node)
    | none => .error .notFound
  | here, name :: rest =>
    match memory.node? here with
    | none => .error .notFound
    | some (.file _) => .error .notDirectory
    | some .directory =>
      if name = "" || name = "." then follow memory here rest
      else if name = ".." then follow memory here.dropLast rest
      else follow memory (here ++ [name]) rest

/-- What a path leads to; the root of the host is out of reach. -/
def find (memory : Memory) (path : String) : Except FileError (Location × Node) :=
  if path = "" || path.toList.head? = some '/' then .error .notFound
  else memory.follow [] (components path)

def readFile (memory : Memory) (path : String) : Except FileError String := do
  match ← memory.find path with
  | (_, .file content) => return content
  | (_, .directory) => throw .isDirectory

def isDirectory (memory : Memory) (path : String) : Bool :=
  match memory.find path with
  | .ok (_, .directory) => true
  | _ => false

def nameBelow? (location other : Location) : Option String :=
  if location.isPrefixOf other then (other.drop location.length).head? else none

def list (memory : Memory) (path : String) : List String :=
  match memory.find path with
  | .ok (location, .directory) =>
    ((memory.files.map Prod.fst ++ memory.directories).filterMap (nameBelow? location)).eraseDups
  | _ => []

def addDirectory (memory : Memory) (location : Location) : Memory :=
  if (memory.node? location).isSome then memory
  else { memory with directories := location :: memory.directories }

def makeFrom (memory : Memory) : Location → List String → Except FileError Memory
  | here, names =>
    match memory.node? here, names with
    | some (.file _), names =>
      if names.all (· = "") then .error .exists else .error .notDirectory
    | _, [] => .ok (memory.addDirectory here)
    | _, name :: rest =>
      let memory := memory.addDirectory here
      if name = "" || name = "." then makeFrom memory here rest
      else if name = ".." then makeFrom memory here.dropLast rest
      else makeFrom memory (here ++ [name]) rest
termination_by structural _ names => names

def makeDirectories (memory : Memory) (path : String) : Except FileError Memory :=
  memory.makeFrom [] (components path)

def setFile (location : Location) (content : String) :
    List (Location × String) → List (Location × String)
  | [] => [(location, content)]
  | file :: rest =>
    if file.1 = location then (location, content) :: rest
    else file :: setFile location content rest

def writeFile (memory : Memory) (path content : String) : Except FileError Memory := do
  let parts := components path
  match ← memory.follow [] parts.dropLast with
  | (_, .file _) => throw .notDirectory
  | (directory, .directory) =>
    let location := directory ++ [parts.getLastD ""]
    if memory.node? location = some .directory then throw .isDirectory
    return { memory with files := setFile location content memory.files }

def attempt (change : Memory → Except FileError Memory) : StateM Memory (Except FileError Unit) :=
  fun memory =>
    match change memory with
    | .ok changed => (.ok (), changed)
    | .error error => (.error error, memory)

def host : Host (StateM Memory) where
  standardInput := fun memory => (memory.input, { memory with input := "" })
  readFile path := do return (← get).readFile path
  isPresent path := do return ((← get).find path).isOk
  isDirectory path := do return (← get).isDirectory path
  list path := do return (← get).list path
  makeDirectories path := attempt fun memory => memory.makeDirectories path
  writeFile path content := attempt fun memory => memory.writeFile path content

def ofFiles (files : List (String × String)) (input : String) : Memory :=
  ⟨files.map fun file => (components file.1, file.2), [], input⟩

def toFiles (memory : Memory) : List (String × String) :=
  memory.files.map fun file => ("/".intercalate file.1, file.2)

end Memory

end WireSchema.CommandLine
