import JvmAccessors.CommandLine.Options
import JvmAccessors.Repository.Cache
import JvmAccessors.Repository.ClassPath
import JvmAccessors.Text.LogLine

/-!
# A run of the command line program

A run asks one cache for the accessors of each class in turn. The output of a class is a line for each accessor; a class
that fails is told in the log, the run goes on, and its exit code is one. A program that stops in the middle of a class
asks for no more.
-/

namespace JvmAccessors

namespace LogEntry

/-- The entry that tells of a failed class. -/
def ofFailure (argument : String) (e : AccessError) : LogEntry :=
  ⟨.error, s!"Could not analyse {argument}: {e.report.full}"⟩

/-- The entry that tells of a map. -/
def ofMap (argument : String) (m : AccessorMap) : LogEntry := ⟨.info, s!"{argument} has {m.size} accessor(s)"⟩

/-- Whether the log shows an entry also when not everything is to be told. -/
def isImportant (entry : LogEntry) : Bool := entry.level = .info || entry.level = .error

/-- An entry as the log shows it: the level at the right of five columns, and the message as a terminal may see it. -/
def text (entry : LogEntry) : String :=
  let level := entry.level.name
  String.ofList (List.replicate (5 - level.length) ' ') ++ level ++ " " ++ LogLine.escape entry.message

end LogEntry

/-- What a run leaves. -/
structure Run where
  cache : Cache
  /-- Whether a class failed. -/
  failed : Bool
  /-- Whether the program stopped in the middle of a class. -/
  stopped : Bool
  output : List String
  log : List LogEntry

namespace Run

/-- The run before its first class. -/
def start : Run := ⟨Cache.empty, false, false, [], []⟩

/-- The output lines of a class. -/
def block (argument : String) (m : AccessorMap) : List String := m.accessors.map fun a => s!"{argument}.{a.text}"

/-- The run after one more class. -/
def step (lookup : String → Traced (Ending AccessError) ClassFile) (nameStart : String) (r : Run) (argument : String) :
    Run :=
  if r.stopped then r
  else
    let fetched := r.cache.fetchBy .failed lookup nameStart argument
    let log := r.log ++ fetched.result.log
    match fetched.result.outcome with
    | .error .stopped => ⟨fetched.cache, r.failed, true, r.output, log⟩
    | .error (.failed e) => ⟨fetched.cache, true, false, r.output, log ++ [.ofFailure argument e]⟩
    | .ok shared =>
      ⟨fetched.cache, r.failed, false, r.output ++ block argument shared.map, log ++ [.ofMap argument shared.map]⟩

/-- The run of some options over a disk, by a build of the program. -/
def ofBuild (build : Build) (disk : Disk) (o : Options) : Run :=
  o.classes.foldl (step (ClassPath.lookupIn build disk ⟨o.classPath⟩) o.nameStart) start

/-- The run of some options over a disk, by a checked build. -/
def ofOptions (disk : Disk) (o : Options) : Run := ofBuild .checked disk o

/-- The exit code of a run. -/
def exitCode (r : Run) : UInt8 := if r.stopped then 101 else if r.failed then 1 else 0

/-- What a run writes to its output. -/
def outputText (r : Run) : String := String.join (r.output.map (· ++ "\n"))

/-- What a run writes to its log. -/
def logText (verbose : Bool) (r : Run) : String :=
  String.join ((r.log.filter fun entry => verbose || entry.isImportant).map (·.text ++ "\n"))

end Run

/-- The exit code of a command line that is refused. -/
def UsageError.exitCode : UInt8 := 2

end JvmAccessors
