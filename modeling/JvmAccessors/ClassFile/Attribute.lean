import JvmAccessors.Bytes.Reader
import JvmAccessors.ClassFile.Pool

/-!
# Attributes and method code

An attribute is a name and bytes that only the name gives a meaning. The attribute named `Code` holds the bytecode of a
method (`Code.decode`); bytes after its own attribute table are ignored. `Attribute.findCode` walks a table of
attributes up to the first that is `Code` or whose name cannot be had.
-/

namespace JvmAccessors

/-- A named block of bytes. -/
structure Attribute where
  name : Index
  content : Bytes
  deriving DecidableEq

/-- A range of code and the handler of the exceptions thrown in it. -/
structure Handler where
  start : UInt16
  stop : UInt16
  target : UInt16
  /-- The class of the exceptions; zero stands for all. -/
  catchType : Index
  deriving DecidableEq

/-- The code of a method. -/
structure Code where
  maxStack : UInt16
  maxLocals : UInt16
  bytecode : Bytes
  handlers : List Handler
  attributes : List Attribute
  deriving DecidableEq

open Reader

/-- Reads one attribute. -/
def Attribute.read : Reader Shortage Attribute := do
  let name ← u16
  let length ← u32
  return ⟨name, ← block length.toNat⟩

/-- Reads a counted table of attributes. -/
def Attribute.readTable : Reader Shortage (List Attribute) := do
  let count ← u16
  times count.toNat Attribute.read

/-- Reads one exception handler. -/
def Handler.read : Reader Shortage Handler := do
  return ⟨← u16, ← u16, ← u16, ← u16⟩

/-- Reads the code of a method. -/
def Code.read : Reader Shortage Code := do
  let maxStack ← u16
  let maxLocals ← u16
  let length ← u32
  let bytecode ← block length.toNat
  let count ← u16
  let handlers ← times count.toNat Handler.read
  return ⟨maxStack, maxLocals, bytecode, handlers, ← Attribute.readTable⟩

/-- The code that the content of a `Code` attribute starts with. -/
def Code.decode (content : Bytes) : Except Shortage Code := (Code.read content).map (·.1)

/-- Why the code of a method could not be had. -/
inductive CodeError
  | name (cause : TextError)
  | content (cause : Shortage)
  deriving DecidableEq

/-- The wording of code that could not be had. -/
def CodeError.message : CodeError → String
  | .name cause => cause.message
  | .content cause => cause.message

/-- The code in a table of attributes, if one is named `Code`. -/
def Attribute.findCode (p : Pool) : List Attribute → Except CodeError (Option Code)
  | [] => .ok none
  | a :: rest =>
    match p.text a.name with
    | .error e => .error (.name e)
    | .ok name =>
      if name = "Code" then
        match Code.decode a.content with
        | .error e => .error (.content e)
        | .ok code => .ok (some code)
      else Attribute.findCode p rest

end JvmAccessors
