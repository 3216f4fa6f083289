import JvmAccessors.Access.Basic
import JvmAccessors.Bytecode.Walk
import JvmAccessors.ClassFile.Pool

/-!
# The one field access of a method

`scan` walks through the code of a method and answers its field access, if it has exactly one. The field of the first
access is looked up when the walk comes to it; those of later accesses are not, since a second one settles the answer.
-/

namespace JvmAccessors

/-- Why the accesses of some code could not be told. -/
inductive ScanError
  | operand (cause : Instruction.MissingOperand)
  | lookup (cause : LookupError)
  /-- The instruction at an offset names a constant that is no field. -/
  | notField (offset : Nat) (found : Slot) (index : Index)
  | text (cause : TextError)
  | undecodable (fault : WalkFault)
  deriving DecidableEq

namespace Scan

/-- Whether a field instruction is for static fields, and what it does; none for other opcodes. -/
def fieldOpcode? : UInt8 → Option (Bool × Direction)
  | 0xb2 => some (true, .read)
  | 0xb3 => some (true, .write)
  | 0xb4 => some (false, .read)
  | 0xb5 => some (false, .write)
  | _ => none

/-- The access that a field instruction makes. -/
def resolve (p : Pool) (code : Bytes) (offset : Nat) (isStatic : Bool) (direction : Direction) :
    Except ScanError FieldAccess :=
  match Instruction.operand code offset with
  | .error e => .error (.operand e)
  | .ok index =>
    match p.get index with
    | .error e => .error (.lookup e)
    | .ok (.constant (.fieldRef owner nameAndType)) =>
      match p.fieldParts owner nameAndType with
      | .error e => .error (.text e)
      | .ok parts => .ok ⟨⟨parts.owner, parts.name, parts.type, isStatic⟩, direction⟩
    | .ok found => .error (.notField offset found index)

/-- The accesses that a walk has met. -/
inductive Found
  | none
  | one (access : FieldAccess)
  | several
  deriving DecidableEq

/-- Follows a walk, given the accesses met so far. -/
def follow (p : Pool) (code : Bytes) : Found → Walk → Except ScanError Found
  | found, .done => .ok found
  | _, .fault f => .error (.undecodable f)
  | found, .step i rest =>
    match fieldOpcode? i.opcode with
    | none => follow p code found rest
    | some (isStatic, direction) =>
      match found with
      | .none =>
        match resolve p code i.offset isStatic direction with
        | .error e => .error e
        | .ok access => follow p code (.one access) rest
      | .one _ | .several => follow p code .several rest

end Scan

/-- The field access of some code, if it has exactly one. -/
def scan (p : Pool) (code : Bytes) : Except ScanError (Option FieldAccess) :=
  match Scan.follow p code .none (Walk.ofCode code) with
  | .error e => .error e
  | .ok (.one access) => .ok (some access)
  | .ok .none | .ok .several => .ok none

end JvmAccessors
