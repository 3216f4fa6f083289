import JvmAccessors.Descriptor.FieldType

/-!
# Method descriptors

A method descriptor spells the types of the parameters between parentheses and then the type of the result.
`MethodType.text` spells a method type and `MethodType.parse` reads a whole text.
-/

namespace JvmAccessors

/-- The types of the parameters and of the result of a method. -/
structure MethodType where
  parameters : List FieldType
  result : FieldType
  deriving DecidableEq, Repr

namespace MethodType

/-- The characters of a method descriptor. -/
def chars (t : MethodType) : List Char := '(' :: t.parameters.flatMap FieldType.chars ++ ')' :: t.result.chars

/-- The descriptor of a method type. -/
def text (t : MethodType) : String := String.ofList t.chars

/-- Takes the types up to the `)` that ends them off the front, and that `)`. -/
def readParameters (cs : List Char) : Except DescriptorError (List FieldType × List Char) :=
  match cs with
  | [] => .error .unclosedParameters
  | ')' :: rest => .ok ([], rest)
  | c :: rest =>
    match _h : FieldType.read (c :: rest) with
    | .error e => .error e
    | .ok (t, rest') => (readParameters rest').map fun (ts, rest'') => (t :: ts, rest'')
termination_by cs.length
decreasing_by exact FieldType.length_lt_of_read ‹_›

/-- The method type that a text spells. -/
def parse (text : String) : Except DescriptorError MethodType :=
  match text.toList with
  | '(' :: cs =>
    match readParameters cs with
    | .error e => .error e
    | .ok (parameters, cs) =>
      match FieldType.read cs with
      | .error e => .error e
      | .ok (result, []) => .ok ⟨parameters, result⟩
      | .ok (_, _ :: _) => .error (.trailingMethod text)
  | _ => .error .unopenedParameters

end MethodType
end JvmAccessors
