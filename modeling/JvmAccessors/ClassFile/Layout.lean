import JvmAccessors.ClassFile.Basic

/-!
# Writing class files

`ClassImage.layout` writes what a class file says, in the order and the widths in which a class file says it: numbers
big-endian, a table after the number of its entries, a block of bytes after its length. `Code.layout` writes the content
of a `Code` attribute.
-/

namespace JvmAccessors

namespace Layout

/-- A byte. -/
def u8 (n : UInt8) : Bytes := Bytes.ofNat 1 n.toNat

/-- A word of two bytes. -/
def u16 (n : UInt16) : Bytes := Bytes.ofNat 2 n.toNat

/-- A word of four bytes. -/
def u32 (n : UInt32) : Bytes := Bytes.ofNat 4 n.toNat

/-- A word of eight bytes. -/
def u64 (n : UInt64) : Bytes := Bytes.ofNat 8 n.toNat

/-- A table after the number of its entries. -/
def table {α : Type} (entry : α → Bytes) (entries : List α) : Bytes :=
  Bytes.ofNat 2 entries.length ++ entries.flatMap entry

end Layout

open Layout

/-- What follows the tag of a constant. -/
def Constant.body : Constant → Bytes
  | .classRef name => u16 name
  | .fieldRef owner pair => u16 owner ++ u16 pair
  | .methodRef owner pair => u16 owner ++ u16 pair
  | .interfaceMethodRef owner pair => u16 owner ++ u16 pair
  | .string text => u16 text
  | .integer bits => u32 bits
  | .float bits => u32 bits
  | .long bits => u64 bits
  | .double bits => u64 bits
  | .nameAndType name descriptor => u16 name ++ u16 descriptor
  | .utf8 bytes => Bytes.ofNat 2 bytes.length ++ bytes
  | .methodHandle kind reference => u8 kind ++ u16 reference
  | .methodType descriptor => u16 descriptor
  | .dynamic bootstrap pair => u16 bootstrap ++ u16 pair
  | .invokeDynamic bootstrap pair => u16 bootstrap ++ u16 pair
  | .moduleRef name => u16 name
  | .packageRef name => u16 name

/-- A constant after its tag. -/
def Constant.layout (c : Constant) : Bytes := u8 c.tag.byte ++ c.body

/-- An attribute. -/
def Attribute.layout (a : Attribute) : Bytes := u16 a.name ++ Bytes.ofNat 4 a.content.length ++ a.content

/-- An exception handler. -/
def Handler.layout (h : Handler) : Bytes := u16 h.start ++ u16 h.stop ++ u16 h.target ++ u16 h.catchType

/-- The content of a `Code` attribute. -/
def Code.layout (k : Code) : Bytes :=
  u16 k.maxStack ++ u16 k.maxLocals ++ Bytes.ofNat 4 k.bytecode.length ++ k.bytecode ++
    table Handler.layout k.handlers ++ table Attribute.layout k.attributes

/-- A field or a method. -/
def Member.layout (m : Member) : Bytes :=
  u16 m.flags ++ u16 m.name ++ u16 m.descriptor ++ table Attribute.layout m.attributes

/-- A class file. -/
def ClassImage.layout (i : ClassImage) : Bytes :=
  u32 ClassImage.magic ++ u16 i.minor ++ u16 i.major ++
    u16 i.poolCount ++ i.constants.flatMap Constant.layout ++
    u16 i.flags ++ u16 i.thisClass ++ u16 i.superClass ++
    table u16 i.interfaces ++ table Member.layout i.fields ++ table Member.layout i.methods ++
    table Attribute.layout i.attributes

end JvmAccessors
