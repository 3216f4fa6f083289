import JvmAccessors.Accessor.Event
import JvmAccessors.ClassFile.Reader
import JvmAccessors.Descriptor.ClassName
import JvmAccessors.Repository.AccessError

/-!
# Classes in memory

A repository answers the class files of class names. `InMemory` keeps the bytes that were inserted last under the
internal form of a name.
-/

namespace JvmAccessors

/-- What is wrong with a class file, and where it came from. -/
def ParseError.inside (origin : String) (e : ParseError) : AccessError :=
  .internal ((Report.ofMessage e.message).within s!"could not parse {origin}")

/-- The class file in some bytes; a failure tells where they came from. -/
def ClassFile.parseFrom (origin : String) (b : Bytes) : Except AccessError ClassFile :=
  (ClassFile.parse b).mapError (·.inside origin)

/-- The answer of a repository to a class name. -/
abbrev Lookup := String → Traced AccessError ClassFile

/-- Class files kept under the internal forms of their names. -/
structure InMemory where
  classes : List (String × Bytes)

namespace InMemory

/-- No classes. -/
def empty : InMemory := ⟨[]⟩

/-- How many classes there are. -/
def size (r : InMemory) : Nat := r.classes.length

/-- The bytes kept under an internal name. -/
def find? (r : InMemory) (internal : String) : Option Bytes := (r.classes.find? (·.1 = internal)).map (·.2)

/-- Keeps bytes under a name, in the place of those kept there before. -/
def insert (r : InMemory) (name : String) (b : Bytes) : InMemory :=
  ⟨(ClassName.internal name, b) :: r.classes.filter (·.1 ≠ ClassName.internal name)⟩

/-- The class file of a name. -/
def lookup (r : InMemory) : Lookup := fun name =>
  match r.find? (ClassName.internal name) with
  | none => .ofExcept (.error (.classNotFound name))
  | some b => .ofExcept (ClassFile.parseFrom (ClassName.internal name) b)

end InMemory
end JvmAccessors
