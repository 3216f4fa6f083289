/-!
# Field accesses

A field is named by its owner, its name and the text of its type, and is static or not. An access reads or writes one.
-/

namespace JvmAccessors

/-- A field, as the instruction that uses it names it. -/
structure FieldRef where
  owner : String
  name : String
  type : String
  isStatic : Bool
  deriving DecidableEq, Repr

/-- A field, as messages show it. -/
def FieldRef.text (f : FieldRef) : String :=
  let kind := if f.isStatic then "static" else "instance"
  s!"{kind} {f.owner}.{f.name} {f.type}"

theorem FieldRef.text_eq (f : FieldRef) : f.text =
    (if f.isStatic then "static" else "instance") ++ " " ++ f.owner ++ "." ++ f.name ++ " " ++ f.type := rfl

/-- What an access does to its field. -/
inductive Direction
  | read | write
  deriving DecidableEq, Repr

/-- A direction, as messages show it. -/
def Direction.text : Direction → String
  | .read => "read"
  | .write => "write"

theorem Direction.text_eq (d : Direction) : d.text = if d = .read then "read" else "write" := by
  cases d <;> rfl

/-- A field and what is done to it. -/
structure FieldAccess where
  field : FieldRef
  direction : Direction
  deriving DecidableEq, Repr

end JvmAccessors
