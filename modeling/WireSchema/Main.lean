import WireSchema.CommandLine.Run

/-! The program: a run on the files and streams of the process. -/

namespace WireSchema.CommandLine

def fileErrorOf : IO.Error → FileError
  | .noFileOrDirectory _ _ _ => .notFound
  | .alreadyExists _ _ _ => .exists
  | .inappropriateType _ code _ =>
    if code = 21 then .isDirectory else .notDirectory
  | error => .other (toString error)

def guarded (action : IO α) : IO (Except FileError α) :=
  tryCatch (do return .ok (← action)) fun error => return .error (fileErrorOf error)

def processHost : Host IO where
  standardInput := do (← IO.getStdin).readToEnd
  readFile path := guarded (IO.FS.readFile path)
  isPresent path := do (← IO.currentDir) / path |>.pathExists
  isDirectory path := do (← IO.currentDir) / path |>.isDir
  list path := do return (← (← IO.currentDir) / path |>.readDir).toList.map (·.fileName)
  makeDirectories path := guarded (IO.FS.createDirAll path)
  writeFile path content := guarded (IO.FS.writeFile path content)

end WireSchema.CommandLine

open WireSchema in
def main (args : List String) : IO UInt32 := do
  let ending ← CommandLine.run CommandLine.processHost args
  IO.print ending.output.stdout
  IO.eprint ending.output.stderr
  return UInt32.ofNat ending.code
