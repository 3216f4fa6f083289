/-!
# Access flags

A class, a field and a method each carry a word of flags, and each gives its bits names of its own. Bits without a name
are dropped when flags are read (`Flags.known`).
-/

namespace JvmAccessors

/-- What a word of flags belongs to. -/
inductive FlagHolder
  | classFile | field | method
  deriving DecidableEq, Repr

namespace FlagHolder

/-- The named bits, in ascending order. -/
def table : FlagHolder → List (UInt16 × String)
  | .classFile =>
    [(0x0001, "PUBLIC"), (0x0010, "FINAL"), (0x0020, "SUPER"), (0x0200, "INTERFACE"), (0x0400, "ABSTRACT"),
     (0x1000, "SYNTHETIC"), (0x2000, "ANNOTATION"), (0x4000, "ENUM"), (0x8000, "MODULE")]
  | .field =>
    [(0x0001, "PUBLIC"), (0x0002, "PRIVATE"), (0x0004, "PROTECTED"), (0x0008, "STATIC"), (0x0010, "FINAL"),
     (0x0040, "VOLATILE"), (0x0080, "TRANSIENT"), (0x1000, "SYNTHETIC"), (0x4000, "ENUM")]
  | .method =>
    [(0x0001, "PUBLIC"), (0x0002, "PRIVATE"), (0x0004, "PROTECTED"), (0x0008, "STATIC"), (0x0010, "FINAL"),
     (0x0020, "SYNCHRONIZED"), (0x0040, "BRIDGE"), (0x0080, "VARARGS"), (0x0100, "NATIVE"), (0x0400, "ABSTRACT"),
     (0x0800, "STRICT"), (0x1000, "SYNTHETIC")]

/-- All named bits. -/
def mask (holder : FlagHolder) : UInt16 := holder.table.foldl (fun bits entry => bits ||| entry.1) 0

end FlagHolder

namespace Flags

/-- The named bits among some bits. -/
def known (holder : FlagHolder) (bits : UInt16) : UInt16 := bits &&& holder.mask

/-- The names of the bits that are set, in ascending order of the bits. -/
def names (holder : FlagHolder) (bits : UInt16) : List String :=
  (holder.table.filter fun entry => bits &&& entry.1 != 0).map (·.2)

/-- The names of the bits that are set, as messages show them. -/
def text (holder : FlagHolder) (bits : UInt16) : String :=
  match names holder bits with
  | [] => "(empty)"
  | names => " | ".intercalate names

/-- A method has code unless it is abstract or native. -/
def hasBody (bits : UInt16) : Bool := bits &&& (0x0400 ||| 0x0100) == 0

end Flags
end JvmAccessors
