import JvmAccessors.Bytecode.Instruction

/-!
# Walking through code

`Walk.ofCode` splits code into its instructions, up to the end or to the first offset where none stands. The walk goes
through the bytes one by one: at an opcode it notes an instruction and how many bytes belong to it, and it passes over
those.
-/

namespace JvmAccessors

/-- Why a walk stopped, and where. -/
structure WalkFault where
  offset : Nat
  cause : DecodeError
  deriving DecidableEq

/-- The place where a walk stopped, as messages show it around the cause. -/
def WalkFault.context (fault : WalkFault) : String := s!"at bytecode offset {fault.offset}"

/-- The instructions of some code, in order. -/
inductive Walk
  /-- The code ends. -/
  | done
  /-- No instruction stands here. -/
  | fault (fault : WalkFault)
  /-- An instruction, and those after it. -/
  | step (instruction : Instruction) (rest : Walk)
  deriving DecidableEq

namespace Walk

/-- The walk from an offset on, after the given number of bytes that belong to the instruction before. -/
def resume (offset : Nat) : (skipped : Nat) → Bytes → Walk
  | _, [] => .done
  | skipped + 1, _ :: rest => Walk.resume (offset + 1) skipped rest
  | 0, opcode :: rest =>
    match Instruction.length offset opcode rest with
    | .error e => .fault ⟨offset, e⟩
    | .ok length =>
      match Bytes.split? (length - 1) rest with
      | none => .fault ⟨offset, .truncated opcode⟩
      | some _ => .step ⟨offset, opcode⟩ (Walk.resume (offset + 1) (length - 1) rest)

/-- The walk through some code from its start. -/
def ofCode (code : Bytes) : Walk := Walk.resume 0 0 code

/-- The instructions of a walk. -/
def instructions : Walk → List Instruction
  | .done => []
  | .fault _ => []
  | .step i rest => i :: rest.instructions

/-- What stopped a walk before the end of the code. -/
def fault? : Walk → Option WalkFault
  | .done => none
  | .fault f => some f
  | .step _ rest => rest.fault?

end Walk
end JvmAccessors
