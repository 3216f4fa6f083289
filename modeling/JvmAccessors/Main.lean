import JvmAccessors.CommandLine.Run

/-!
# The command line program

Prints the accessors of the classes that the command line names. The files that the classes may be in are read first,
and the run is that of `Run.ofOptions` over what was found.
-/

namespace JvmAccessors

/-- The regular file at a path, if there is one. -/
def regularFile (path : String) : IO (Option (Except String Bytes)) := do
  if path.toList.contains '\x00' then return none
  let location := (← IO.currentDir) / path
  try
    let metadata ← location.metadata
    if metadata.type != .file then return none
  catch _ => return none
  try
    return some (.ok (← IO.FS.readBinFile location).toList)
  catch e => return some (.error (toString e))

/-- The files that a run may ask for. -/
def readFiles (o : Options) : IO (List (String × Except String Bytes)) := do
  let mut found := []
  for argument in o.classes do
    for root in o.classPath do
      let path := joinPath root (ClassPath.fileName argument)
      if let some content ← regularFile path then found := (path, content) :: found
  return found

/-- The disk that holds some files and nothing else. -/
def diskOf (files : List (String × Except String Bytes)) : Disk := fun path =>
  (files.find? (·.1 = path)).map (·.2)

/-- Runs a command line and answers its exit code. -/
def runArguments (args : List String) : IO UInt32 := do
  match Options.parse args with
  | .error e =>
    IO.eprintln s!"error: {e.message}"
    return UsageError.exitCode.toUInt32
  | .ok o =>
    let r := Run.ofOptions (diskOf (← readFiles o)) o
    IO.eprint (r.logText o.verbose)
    IO.print r.outputText
    return r.exitCode.toUInt32

end JvmAccessors

/-- The program. -/
def main (args : List String) : IO UInt32 := JvmAccessors.runArguments args
