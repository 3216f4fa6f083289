import JvmAccessors.Access.Basic
import JvmAccessors.Descriptor.MethodType

/-!
# The signature of an accessor

An accessor is a static method: it takes the instance whose field it uses, unless the field is static, and the value
that it writes, if it writes one, and it returns the value of the field.
`FieldAccess.signature` gives that type for a class.
-/

namespace JvmAccessors
namespace FieldAccess

/-- The type of an accessor in a class that makes this access. -/
def signature (enclosing : String) (a : FieldAccess) : Except DescriptorError MethodType :=
  match FieldType.parse a.field.type with
  | .error e => .error e
  | .ok type =>
    let receiver := if a.field.isStatic then [] else [FieldType.ofClassName enclosing]
    let value := if a.direction = .write then [type] else []
    .ok ⟨receiver ++ value, type⟩

/-- Whether a method with the given descriptor can be an accessor that makes this access. -/
def fits (enclosing : String) (a : FieldAccess) (declared : String) : Except DescriptorError Bool :=
  (a.signature enclosing).map fun t => t.text = declared

end FieldAccess
end JvmAccessors
