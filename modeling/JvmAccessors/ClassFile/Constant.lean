import JvmAccessors.Bytes.BigEndian

/-!
# Constants of a class file

The constant pool of a class file holds constants of seventeen kinds, told apart by a tag byte. Constants refer to each
other by the numbers of pool slots. A `long` or a `double` takes two slots, the second of which stays unused; every
other constant takes one (`Constant.slots`).
-/

namespace JvmAccessors

/-- The number of a pool slot, counted from one. -/
abbrev Index := UInt16

/-- The kind of a constant. -/
inductive Tag
  | classRef | fieldRef | methodRef | interfaceMethodRef
  | string | integer | float | long | double
  | nameAndType | utf8
  | methodHandle | methodType | dynamic | invokeDynamic
  | moduleRef | packageRef
  deriving DecidableEq, Repr

namespace Tag

/-- The kind that a tag byte stands for. -/
def ofByte? : UInt8 → Option Tag
  | 1 => some utf8
  | 3 => some integer
  | 4 => some float
  | 5 => some long
  | 6 => some double
  | 7 => some classRef
  | 8 => some string
  | 9 => some fieldRef
  | 10 => some methodRef
  | 11 => some interfaceMethodRef
  | 12 => some nameAndType
  | 15 => some methodHandle
  | 16 => some methodType
  | 17 => some dynamic
  | 18 => some invokeDynamic
  | 19 => some moduleRef
  | 20 => some packageRef
  | _ => none

/-- The tag byte of a kind. -/
def byte : Tag → UInt8
  | utf8 => 1
  | integer => 3
  | float => 4
  | long => 5
  | double => 6
  | classRef => 7
  | string => 8
  | fieldRef => 9
  | methodRef => 10
  | interfaceMethodRef => 11
  | nameAndType => 12
  | methodHandle => 15
  | methodType => 16
  | dynamic => 17
  | invokeDynamic => 18
  | moduleRef => 19
  | packageRef => 20

/-- The name of a kind, as a demand for it shows it. -/
def name : Tag → String
  | classRef => "Class"
  | fieldRef => "Field"
  | methodRef => "Method"
  | interfaceMethodRef => "InterfaceMethod"
  | string => "String"
  | integer => "Integer"
  | float => "Float"
  | long => "Long"
  | double => "Double"
  | nameAndType => "NameAndType"
  | utf8 => "Utf8"
  | methodHandle => "MethodHandle"
  | methodType => "MethodType"
  | dynamic => "Dynamic"
  | invokeDynamic => "InvokeDynamic"
  | moduleRef => "Module"
  | packageRef => "Package"

/-- The name of a kind, as a constant that was found shows it. -/
def kind : Tag → String
  | fieldRef => "Fieldref"
  | methodRef => "Methodref"
  | interfaceMethodRef => "InterfaceMethodref"
  | tag => tag.name

end Tag

/-- A constant; numbers are kept as the bits that the file holds. -/
inductive Constant
  | classRef (name : Index)
  | fieldRef (owner nameAndType : Index)
  | methodRef (owner nameAndType : Index)
  | interfaceMethodRef (owner nameAndType : Index)
  | string (text : Index)
  | integer (bits : UInt32)
  | float (bits : UInt32)
  | long (bits : UInt64)
  | double (bits : UInt64)
  | nameAndType (name descriptor : Index)
  | utf8 (bytes : Bytes)
  | methodHandle (kind : UInt8) (reference : Index)
  | methodType (descriptor : Index)
  | dynamic (bootstrap nameAndType : Index)
  | invokeDynamic (bootstrap nameAndType : Index)
  | moduleRef (name : Index)
  | packageRef (name : Index)
  deriving DecidableEq

/-- What a pool holds at one number. -/
inductive Slot
  | constant (c : Constant)
  /-- The second slot of a `long` or a `double`. -/
  | reserved
  deriving DecidableEq

namespace Constant

/-- The kind of a constant. -/
def tag : Constant → Tag
  | classRef _ => .classRef
  | fieldRef _ _ => .fieldRef
  | methodRef _ _ => .methodRef
  | interfaceMethodRef _ _ => .interfaceMethodRef
  | string _ => .string
  | integer _ => .integer
  | float _ => .float
  | long _ => .long
  | double _ => .double
  | nameAndType _ _ => .nameAndType
  | utf8 _ => .utf8
  | methodHandle _ _ => .methodHandle
  | methodType _ => .methodType
  | dynamic _ _ => .dynamic
  | invokeDynamic _ _ => .invokeDynamic
  | moduleRef _ => .moduleRef
  | packageRef _ => .packageRef

/-- Whether a constant takes two slots. -/
def isWide : Constant → Bool
  | long _ | double _ => true
  | _ => false

/-- The slots that a constant takes. -/
def slots (c : Constant) : List Slot := if c.isWide then [.constant c, .reserved] else [.constant c]

end Constant

/-- The name of what a slot holds. -/
def Slot.kind : Slot → String
  | .constant c => c.tag.kind
  | .reserved => "<reserved>"

/-- The tag byte of a kind stands for that kind. -/
theorem Tag.ofByte?_byte (tag : Tag) : Tag.ofByte? tag.byte = some tag := by
  cases tag <;> rfl

end JvmAccessors
