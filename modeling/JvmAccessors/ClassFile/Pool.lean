import JvmAccessors.ClassFile.Constant
import JvmAccessors.Text.ModifiedUtf8

/-!
# The constant pool

A pool numbers its slots from one. A lookup asks for a slot, or for a constant of one kind, and fails with the reason
why it is not there; a text lookup goes on to decode the text that a constant holds or leads to. `Pool.check` asks of
every constant that the slots it names hold constants of the kinds it needs.
-/

namespace JvmAccessors

/-- Why a lookup found nothing. -/
inductive LookupError
  /-- Slots are counted from one. -/
  | zeroIndex
  | missing (index : Index)
  | wrongKind (expected : Tag) (found : Slot) (index : Index)
  deriving DecidableEq

/-- The wording of a failed lookup. -/
def LookupError.message : LookupError → String
  | .zeroIndex => "constant pool index 0 is not addressable"
  | .missing index => s!"no value found @ {index.toNat}"
  | .wrongKind expected found index => s!"expected {expected.name} got {found.kind} @ {index.toNat}"

/-- Why a text could not be had. -/
inductive TextError
  | lookup (cause : LookupError)
  | encoding (cause : ModifiedUtf8.Error)
  deriving DecidableEq

/-- The wording of a text that could not be had. -/
def TextError.message : TextError → String
  | .lookup cause => cause.message
  | .encoding cause => cause.message

/-- The texts of a reference to a field. -/
structure FieldParts where
  owner : String
  name : String
  type : String
  deriving DecidableEq, Repr

/-- A kind of constant, and what a constant of this kind holds. -/
structure Kind (α : Type) where
  tag : Tag
  part : Constant → Option α
  isSome_part : ∀ k, (part k).isSome = decide (k.tag = tag)

namespace Kind

/-- A text and its bytes. -/
def utf8 : Kind Bytes where
  tag := .utf8
  part
    | .utf8 bytes => some bytes
    | _ => none
  isSome_part k := by cases k <;> rfl

/-- A class and the number of its name. -/
def classRef : Kind Index where
  tag := .classRef
  part
    | .classRef name => some name
    | _ => none
  isSome_part k := by cases k <;> rfl

/-- A pair and the numbers of its name and of its descriptor. -/
def nameAndType : Kind (Index × Index) where
  tag := .nameAndType
  part
    | .nameAndType name descriptor => some (name, descriptor)
    | _ => none
  isSome_part k := by cases k <;> rfl

/-- A field and the numbers of its owner and of its name and type. -/
def fieldRef : Kind (Index × Index) where
  tag := .fieldRef
  part
    | .fieldRef owner nameAndType => some (owner, nameAndType)
    | _ => none
  isSome_part k := by cases k <;> rfl

end Kind

/-- A constant pool: its slots, from number one on. -/
structure Pool where
  slots : Array Slot
  deriving DecidableEq

namespace Pool

/-- The pool without slots. -/
def empty : Pool := ⟨#[]⟩

/-- How many slots a pool has. -/
def size (p : Pool) : Nat := p.slots.size

/-- The pool with one more slot at its end. -/
def insert (p : Pool) (s : Slot) : Pool := ⟨p.slots.push s⟩

/-- The pool of a list of constants, each in the slots that it takes. -/
def ofConstants (constants : List Constant) : Pool := ⟨(constants.flatMap Constant.slots).toArray⟩

/-! ## Lookups -/

/-- What the pool holds at a number. -/
def get (p : Pool) (i : Index) : Except LookupError Slot :=
  if i = 0 then .error .zeroIndex
  else match p.slots[i.toNat - 1]? with
    | some s => .ok s
    | none => .error (.missing i)

/-- What the constant at a number holds, if it is of the kind that is asked for. -/
def demand {α : Type} (p : Pool) (kind : Kind α) (i : Index) : Except LookupError α :=
  match p.get i with
  | .error e => .error e
  | .ok .reserved => .error (.wrongKind kind.tag .reserved i)
  | .ok (.constant k) =>
    match kind.part k with
    | some a => .ok a
    | none => .error (.wrongKind kind.tag (.constant k) i)

/-- The bytes of the text constant at a number. -/
def utf8At (p : Pool) (i : Index) : Except LookupError Bytes := p.demand .utf8 i

/-- The number of the name of the class at a number. -/
def classAt (p : Pool) (i : Index) : Except LookupError Index := p.demand .classRef i

/-- The numbers of the name and of the descriptor of the pair at a number. -/
def nameAndTypeAt (p : Pool) (i : Index) : Except LookupError (Index × Index) := p.demand .nameAndType i

/-- The numbers of the owner and of the name and type of the field at a number. -/
def fieldAt (p : Pool) (i : Index) : Except LookupError (Index × Index) := p.demand .fieldRef i

/-! ## Texts -/

/-- The text at a number. -/
def text (p : Pool) (i : Index) : Except TextError String := do
  let bytes ← (p.utf8At i).mapError .lookup
  (ModifiedUtf8.decode bytes).mapError .encoding

/-- The name of the class at a number. -/
def className (p : Pool) (i : Index) : Except TextError String := do
  let name ← (p.classAt i).mapError .lookup
  p.text name

/-- The texts that a field constant leads to: those of the owner first, then the name, then the type. -/
def fieldParts (p : Pool) (owner nameAndType : Index) : Except TextError FieldParts := do
  let ownerName ← p.className owner
  let (name, type) ← (p.nameAndTypeAt nameAndType).mapError .lookup
  return ⟨ownerName, ← p.text name, ← p.text type⟩

/-! ## The check of a whole pool -/

/-- Asks for what a constant names, in the order in which the constant names it. -/
def checkConstant (p : Pool) : Constant → Except LookupError Unit
  | .classRef name | .moduleRef name | .packageRef name => do discard (p.utf8At name)
  | .string text => do discard (p.utf8At text)
  | .methodType descriptor => do discard (p.utf8At descriptor)
  | .fieldRef owner nameAndType | .methodRef owner nameAndType | .interfaceMethodRef owner nameAndType => do
    discard (p.classAt owner)
    discard (p.nameAndTypeAt nameAndType)
  | .nameAndType name descriptor => do
    discard (p.utf8At name)
    discard (p.utf8At descriptor)
  | .dynamic _ nameAndType | .invokeDynamic _ nameAndType => do discard (p.nameAndTypeAt nameAndType)
  | .integer _ | .float _ | .long _ | .double _ | .utf8 _ | .methodHandle _ _ => .ok ()

/-- Checks slots in turn. -/
def checkSlots (p : Pool) : List Slot → Except LookupError Unit
  | [] => .ok ()
  | .reserved :: rest => p.checkSlots rest
  | .constant c :: rest =>
    match p.checkConstant c with
    | .error e => .error e
    | .ok () => p.checkSlots rest

/-- Checks every constant of the pool. -/
def check (p : Pool) : Except LookupError Unit := p.checkSlots p.slots.toList

end Pool
end JvmAccessors
