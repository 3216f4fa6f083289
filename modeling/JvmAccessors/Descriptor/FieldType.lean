import JvmAccessors.Descriptor.ClassName

/-!
# Field descriptors

A field descriptor spells a type: a letter for a primitive type, `L`, a class name and `;` for an object type, `[` and a
field descriptor for an array type. `FieldType.text` spells a type, `FieldType.read` takes one off the front of a list
of characters and `FieldType.parse` reads a whole text. A reading always takes something (`length_lt_of_read`).
-/

namespace JvmAccessors

/-- The primitive types, and `void`. -/
inductive Primitive
  | boolean | char | float | double | byte | short | int | long | void
  deriving DecidableEq, Repr

namespace Primitive

/-- The letter of a primitive type. -/
def letter : Primitive → Char
  | boolean => 'Z'
  | char => 'C'
  | float => 'F'
  | double => 'D'
  | byte => 'B'
  | short => 'S'
  | int => 'I'
  | long => 'J'
  | void => 'V'

/-- The primitive type of a letter. -/
def ofLetter? : Char → Option Primitive
  | 'Z' => some boolean
  | 'C' => some char
  | 'F' => some float
  | 'D' => some double
  | 'B' => some byte
  | 'S' => some short
  | 'I' => some int
  | 'J' => some long
  | 'V' => some void
  | _ => none

end Primitive

/-- Why a text is no descriptor. -/
inductive DescriptorError
  | missingType
  | unterminatedName (name : String)
  | emptyName
  | unknownType (letter : Char)
  | trailingField (text : String)
  | unopenedParameters
  | unclosedParameters
  | trailingMethod (text : String)
  deriving DecidableEq, Repr

/-- The wording of a cause. -/
def DescriptorError.message : DescriptorError → String
  | .missingType => "no more chars"
  | .unterminatedName name => s!"unterminated class name {name}"
  | .emptyName => "empty class name"
  | .unknownType letter => s!"unknown type {letter}"
  | .trailingField text => s!"trailing characters in field descriptor {text}"
  | .unopenedParameters => "descriptor did not start with ("
  | .unclosedParameters => "descriptor did not close its parameter list"
  | .trailingMethod text => s!"trailing characters in method descriptor {text}"

/-- The type of a field, of a parameter or of a result. -/
inductive FieldType
  | primitive (p : Primitive)
  | object (className : String)
  | array (element : FieldType)
  deriving DecidableEq, Repr

namespace FieldType

/-- The object type of a class whose name is given with `.` or `/` between its parts. -/
def ofClassName (name : String) : FieldType := .object (ClassName.internal name)

/-- The characters of a descriptor. -/
def chars : FieldType → List Char
  | .primitive p => [p.letter]
  | .object className => 'L' :: className.toList ++ [';']
  | .array element => '[' :: element.chars

/-- The descriptor of a type. -/
def text (t : FieldType) : String := String.ofList t.chars

/-- Takes a class name and the `;` after it off the front. -/
def readName (cs : List Char) : Except DescriptorError (String × List Char) :=
  match cs.dropWhile (· != ';') with
  | [] => .error (.unterminatedName (String.ofList (cs.takeWhile (· != ';'))))
  | _ :: rest =>
    if cs.takeWhile (· != ';') = [] then .error .emptyName
    else .ok (String.ofList (cs.takeWhile (· != ';')), rest)

/-- Takes one type off the front. -/
def read : List Char → Except DescriptorError (FieldType × List Char)
  | [] => .error .missingType
  | '[' :: rest => (read rest).map fun (element, rest) => (.array element, rest)
  | 'L' :: rest => (readName rest).map fun (name, rest) => (.object name, rest)
  | c :: rest =>
    match Primitive.ofLetter? c with
    | some p => .ok (.primitive p, rest)
    | none => .error (.unknownType c)

/-- The type that a text spells. -/
def parse (text : String) : Except DescriptorError FieldType :=
  match read text.toList with
  | .error e => .error e
  | .ok (t, []) => .ok t
  | .ok (_, _ :: _) => .error (.trailingField text)

/-! ## Progress -/

/-- A class name and its `;` are taken off the front. -/
theorem length_lt_of_readName {cs rest : List Char} {name : String} (h : readName cs = .ok (name, rest)) :
    rest.length < cs.length := by
  unfold readName at h
  split at h
  · simp at h
  · rename_i c rest' hd
    split at h
    · simp at h
    · simp only [Except.ok.injEq, Prod.mk.injEq] at h
      obtain ⟨_, rfl⟩ := h
      have hle : (cs.dropWhile (· != ';')).length ≤ cs.length := (List.dropWhile_suffix _).length_le
      rw [hd, List.length_cons] at hle
      omega

/-- A type takes at least one character off the front. -/
theorem length_lt_of_read {cs rest : List Char} {t : FieldType} (h : read cs = .ok (t, rest)) :
    rest.length < cs.length := by
  fun_induction read cs generalizing t rest with
  | case1 => simp at h
  | case2 cs ih =>
    cases hr : read cs with
    | error e => simp [hr, Except.map] at h
    | ok r =>
      simp only [hr, Except.map, Except.ok.injEq, Prod.mk.injEq] at h
      have : r.2.length < cs.length := ih (hr : read cs = .ok (r.1, r.2))
      rw [← h.2, List.length_cons]
      omega
  | case3 cs =>
    cases hr : readName cs with
    | error e => simp [hr, Except.map] at h
    | ok r =>
      simp only [hr, Except.map, Except.ok.injEq, Prod.mk.injEq] at h
      have : r.2.length < cs.length := length_lt_of_readName (hr : readName cs = .ok (r.1, r.2))
      rw [← h.2, List.length_cons]
      omega
  | case4 c cs _ _ p hp =>
    simp only [Except.ok.injEq, Prod.mk.injEq] at h
    rw [← h.2, List.length_cons]
    omega
  | case5 => simp at h

end FieldType
end JvmAccessors
