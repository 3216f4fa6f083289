import JvmAccessors.ClassFile.Basic

/-!
# Reading class files

`ClassFile.parse` reads a whole byte string as a class file. The pool is checked as soon as it is read, so that its
faults win over those of the bytes after it. Constants are read until they fill the declared slots; a `long` or a
`double` in the last of them takes one slot more.
-/

namespace JvmAccessors

/-- Why a byte string is no class file. -/
inductive ParseError
  | shortage (cause : Shortage)
  | badMagic (value : UInt32)
  | unknownTag (tag : UInt8)
  /-- A constant names a slot that does not hold what it needs. -/
  | badReference (cause : LookupError)
  | extraBytes
  deriving DecidableEq

/-- The wording of a cause. -/
def ParseError.message : ParseError → String
  | .shortage cause => cause.message
  | .badMagic value => s!"invalid magic value '{Hexadecimal.number value.toNat}'"
  | .unknownTag tag => s!"{tag.toNat} is an unknown tag"
  | .badReference cause => cause.message
  | .extraBytes => "classfile has extra bytes at the end"

/-- The kind of constant that a tag byte announces. -/
def Tag.ofByte (tag : UInt8) : Except ParseError Tag :=
  match Tag.ofByte? tag with
  | some t => .ok t
  | none => .error (.unknownTag tag)

instance : MonadLift (Reader Shortage) (Reader ParseError) where
  monadLift p := p.mapError .shortage

open Reader

/-- Reads what follows the tag of a constant. -/
def Constant.readBody : Tag → Reader Shortage Constant
  | .classRef => return .classRef (← u16)
  | .fieldRef => return .fieldRef (← u16) (← u16)
  | .methodRef => return .methodRef (← u16) (← u16)
  | .interfaceMethodRef => return .interfaceMethodRef (← u16) (← u16)
  | .string => return .string (← u16)
  | .integer => return .integer (← u32)
  | .float => return .float (← u32)
  | .long => return .long (← u64)
  | .double => return .double (← u64)
  | .nameAndType => return .nameAndType (← u16) (← u16)
  | .utf8 => do
    let length ← u16
    return .utf8 (← block length.toNat)
  | .methodHandle => return .methodHandle (← u8) (← u16)
  | .methodType => return .methodType (← u16)
  | .dynamic => return .dynamic (← u16) (← u16)
  | .invokeDynamic => return .invokeDynamic (← u16) (← u16)
  | .moduleRef => return .moduleRef (← u16)
  | .packageRef => return .packageRef (← u16)

/-- Reads one constant. -/
def Constant.read : Reader ParseError Constant := do
  let tag ← u8
  let tag ← Tag.ofByte tag
  Constant.readBody tag

/-- Reads constants into the given number of free slots. -/
def Constant.readInto : (free : Nat) → Reader ParseError (List Constant)
  | 0 => pure []
  | 1 => do return [← Constant.read]
  | free + 2 => do
    let c ← Constant.read
    return c :: (← if c.isWide then readInto free else readInto (free + 1))

/-- Reads a field or a method. -/
def Member.read : Reader Shortage Member := do
  return ⟨← u16, ← u16, ← u16, ← Attribute.readTable⟩

/-- Reads the magic number, the versions, and how many slots are declared. -/
def ClassImage.readHeader : Reader ParseError (UInt16 × UInt16 × UInt16) := do
  let magic ← u32
  if magic ≠ ClassImage.magic then throw (.badMagic magic)
  return (← u16, ← u16, ← u16)

/-- The references of some constants have to lead somewhere. -/
def ClassImage.checkPool (constants : List Constant) : Except ParseError Unit :=
  (Pool.ofConstants constants).check.mapError .badReference

/-- Reads what stands after the constants. -/
def ClassImage.readBody (minor major poolCount : UInt16) (constants : List Constant) : Reader Shortage ClassImage := do
  let flags ← u16
  let thisClass ← u16
  let superClass ← u16
  let count ← u16
  let interfaces ← times count.toNat u16
  let count ← u16
  let fields ← times count.toNat Member.read
  let count ← u16
  let methods ← times count.toNat Member.read
  let attributes ← Attribute.readTable
  return { minor, major, poolCount, constants, flags, thisClass, superClass, interfaces, fields, methods, attributes }

/-- Checks the constants, and reads what stands after them. -/
def ClassImage.readRest (minor major poolCount : UInt16) (constants : List Constant) :
    Reader ParseError ClassImage := do
  ClassImage.checkPool constants
  ClassImage.readBody minor major poolCount constants

/-- Reads a class file off the front. -/
def ClassImage.read : Reader ParseError ClassImage := do
  let (minor, major, poolCount) ← ClassImage.readHeader
  let constants ← Constant.readInto (poolCount.toNat - 1)
  ClassImage.readRest minor major poolCount constants

/-- What a class file is that was read off the front of a byte string, of which nothing may be left. -/
def ClassFile.ofReading {ε : Type} (fail : ParseError → ε) : Except ε (ClassImage × Bytes) → Except ε ClassFile
  | .error e => .error e
  | .ok (image, []) => .ok image.classFile
  | .ok (_, _ :: _) => .error (fail .extraBytes)

/-- The class file that a byte string holds. -/
def ClassFile.parse (b : Bytes) : Except ParseError ClassFile := ClassFile.ofReading id (ClassImage.read b)

end JvmAccessors
