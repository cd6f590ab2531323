import WireSchema.CommandLine.Pattern

/-! What a command needs from its surroundings, and the files that a pattern names there. -/

namespace WireSchema.CommandLine

inductive FileError where
  | notFound
  | exists
  | notDirectory
  | isDirectory
  | other (message : String)
  deriving DecidableEq, Repr

def FileError.message : FileError → String
  | notFound => "No such file or directory (os error 2)"
  | «exists» => "File exists (os error 17)"
  | notDirectory => "Not a directory (os error 20)"
  | isDirectory => "Is a directory (os error 21)"
  | other message => message

structure Host (m : Type → Type) where
  standardInput : m String
  readFile : String → m (Except FileError String)
  isPresent : String → m Bool
  isDirectory : String → m Bool
  /-- Names in a directory, in any order. -/
  list : String → m (List String)
  makeDirectories : String → m (Except FileError Unit)
  writeFile : String → String → m (Except FileError Unit)

def joinFile (directory name : String) : String :=
  match directory.toList.getLast? with
  | none => name
  | some c => if c = '/' then directory ++ name else directory ++ "/" ++ name

/-- The current directory stays unnamed. -/
def entryFile (directory name : String) : String :=
  if directory = "." then name else joinFile directory name

def fileName (path : String) : List Char :=
  (path.toList.splitOn '/').getLastD []

/-! ## Files of a pattern

A visit is made to a path with the parts of the pattern that its name and those below it have to
fit. -/

section

variable {m : Type → Type} [Monad m]

/-- A place of a search. A settled one fits already. -/
inductive Place where
  | settled (path : String)
  | open (path : String) (parts : List Pattern)

/-- Places one step below a directory, in the order of their visits: special names first, then
entries by name. -/
def Host.below (host : Host m) : List Pattern → String → m (List Place)
  | [], _ => return []
  | part :: rest, directory => do
    let next (path : String) : m (List Place) :=
      if rest.isEmpty then return [.settled path] else host.below rest path
    match Pattern.plainName? part with
    | some name =>
      let name := String.ofList name
      let path := entryFile directory name
      let special := name = "." || name = ".."
      let present ← if special then host.isDirectory directory else host.isPresent path
      if present then next path else return []
    | none =>
      if ← host.isDirectory directory then
        let names := (← host.list directory).mergeSort fun a b => decide (a ≤ b)
        let special (name : String) : m (List Place) :=
          if part.head? = some (.literal '.') && Pattern.fits part name.toList then
            next (joinFile directory name)
          else return []
        return (← special "..") ++ (← special ".") ++
          names.map fun name => .open (entryFile directory name) (part :: rest)
      else return []

def afterRecursive (parts : List Pattern) : List Pattern :=
  parts.dropWhile Pattern.isRecursive

/-- Files at a place and below it. A path has at most 4096 bytes, so that no directory is deeper
than the fuel. -/
def Host.visit (host : Host m) (needsDirectory : Bool) : Nat → Place → m (List String)
  | 0, _ => return []
  | fuel + 1, place => do
    let below (parts : List Pattern) (path : String) : m (List String) := do
      return (← (← host.below parts path).mapM (host.visit needsDirectory fuel)).flatten
    let fitting (parts : List Pattern) (path : String) : m (List String) := do
      match parts with
      | [] => return []
      | part :: rest =>
        if !Pattern.fits part (fileName path) then return []
        else if !rest.isEmpty then below rest path
        else if !needsDirectory || (← host.isDirectory path) then return [path]
        else return []
    match place with
    | .settled path =>
      if !needsDirectory || (← host.isDirectory path) then return [path] else return []
    | .open path parts =>
      let rest := afterRecursive parts
      if rest.length = parts.length then fitting parts path
      else
        let own ← if rest.isEmpty then
            if ← host.isDirectory path then pure [path] else pure []
          else fitting rest path
        -- one recursive part stays for the directories below
        let deeper ← if ← host.isDirectory path then below ([.anyDepth] :: rest) path else pure []
        return own ++ deeper

def Host.files (host : Host m) (text : String) : m (Except PatternError (List String)) := do
  let chars := text.toList
  let absolute := chars.head? = some '/'
  let relative := chars.dropWhile (· = '/')
  let needsDirectory := chars.getLast? = some '/'
  let components := if needsDirectory then (relative.splitOn '/').dropLast
    else relative.splitOn '/'
  match Pattern.read chars, components.mapM Pattern.read with
  | .error error, _ | .ok _, .error error => return .error error
  | .ok _, .ok parts =>
    let places ← host.below parts (if absolute then "/" else ".")
    return .ok (← places.mapM (host.visit needsDirectory 4096)).flatten

end

end WireSchema.CommandLine
