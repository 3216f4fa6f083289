import JvmAccessors.ClassFile.Counter
import JvmAccessors.Repository.InMemory

/-!
# Classes on a class path

A class path is a list of directories. The file of a class is its internal name and `.class` below the first directory
that has such a file; what stands in later directories is never looked at. The files themselves are given as a `Disk`.
-/

namespace JvmAccessors

/-- The regular file that a path names, if it names one: its bytes, or the reason why they cannot be read. -/
abbrev Disk := String → Option (Except String Bytes)

/-- The path of a name below a directory; an absolute name stands for itself, and so does a name below no directory. -/
def joinPath (root name : String) : String :=
  if name.toList.head? = some '/' ∨ root = "" then name
  else if root.toList.getLast? = some '/' then root ++ name
  else root ++ "/" ++ name

/-- The directories that classes are looked for in. -/
structure ClassPath where
  roots : List String
  deriving DecidableEq, Repr

namespace ClassPath

/-- The path of the file of a class below any directory. -/
def fileName (name : String) : String := ClassName.internal name ++ ".class"

/-- The first directory that has a regular file of a name, as the path of that file and what it holds. -/
def locate (disk : Disk) (file : String) : List String → Option (String × Except String Bytes)
  | [] => none
  | root :: roots =>
    match disk (joinPath root file) with
    | some content => some (joinPath root file, content)
    | none => locate disk file roots

/-- The class file of a name, given how failures are told and how the bytes of a path are parsed. -/
def lookupBy {ε : Type} (fail : AccessError → ε) (parse : String → Bytes → Except ε ClassFile) (disk : Disk)
    (p : ClassPath) (name : String) : Traced ε ClassFile :=
  match locate disk (fileName name) p.roots with
  | none => .ofExcept (.error (fail (.classNotFound name)))
  | some (path, .error reason) => .after (.loading name path) (.ofExcept (.error (fail (.unreadable path reason))))
  | some (path, .ok b) => .after (.loading name path) (.ofExcept (parse path b))

/-- The class file of a name. -/
def lookup (disk : Disk) (p : ClassPath) : Lookup := lookupBy id ClassFile.parseFrom disk p

/-- The class file of a name as a build of the program looks it up. -/
def lookupIn (build : Build) (disk : Disk) (p : ClassPath) : String → Traced (Ending AccessError) ClassFile :=
  lookupBy .failed (fun path b => (build.parse b).mapError (·.map (·.inside path))) disk p

end ClassPath
end JvmAccessors
