import JvmAccessors.Bytes.Reader
import JvmAccessors.Text.Hexadecimal

/-!
# The lengths of instructions

An instruction is an opcode byte and operands, whose length the opcode tells (`form`): most opcodes have a fixed length,
`wide` lengthens the instruction it stands before, and the two switches carry a table, aligned to a multiple of four
from the start of the code. `length` gives the length of an instruction from its offset, its opcode and the bytes
after it.
-/

namespace JvmAccessors

/-- Where an instruction starts, and its opcode. -/
structure Instruction where
  offset : Nat
  opcode : UInt8
  deriving DecidableEq, Repr

/-- Why no instruction stands at an offset. -/
inductive DecodeError
  /-- The code ends after `wide`. -/
  | wideAlone
  /-- `wide` stands before an instruction that has no wide form. -/
  | unknownWide (opcode : UInt8)
  /-- The code ends in the padding of a switch, before this offset. -/
  | operandsPastEnd (offset : Nat)
  /-- The code ends in the head of a switch. -/
  | shortage (cause : Shortage)
  | invertedBounds (low high : Int32)
  | negativePairs (pairs : Int32)
  | unknownOpcode (opcode : UInt8)
  | truncated (opcode : UInt8)
  deriving DecidableEq

/-- The wording of a cause. -/
def DecodeError.message : DecodeError → String
  | .wideAlone => "wide without a modified opcode"
  | .unknownWide opcode => s!"unknown wide opcode {Hexadecimal.byte opcode}"
  | .operandsPastEnd offset => s!"operands start past the end of the code @ {offset}"
  | .shortage cause => cause.message
  | .invertedBounds low high => s!"tableswitch low {low.toInt} is above high {high.toInt}"
  | .negativePairs pairs => s!"lookupswitch has negative pair count {pairs.toInt}"
  | .unknownOpcode opcode => s!"unknown opcode {Hexadecimal.byte opcode}"
  | .truncated opcode => s!"instruction {Hexadecimal.byte opcode} is truncated"

namespace Instruction

/-- How an opcode tells the length of its instruction. -/
inductive Form
  | fixed (length : Nat)
  | wide
  | tableSwitch
  | lookupSwitch
  | unknown
  deriving DecidableEq, Repr

/-- The form of an opcode, range by range. -/
def form (opcode : UInt8) : Form :=
  let op := opcode.toNat
  if op ≤ 0x0f then .fixed 1            -- constants
  else if op = 0x10 then .fixed 2       -- bipush
  else if op = 0x11 then .fixed 3       -- sipush
  else if op = 0x12 then .fixed 2       -- ldc
  else if op ≤ 0x14 then .fixed 3       -- ldc_w, ldc2_w
  else if op ≤ 0x19 then .fixed 2       -- loads
  else if op ≤ 0x35 then .fixed 1       -- loads of the first variables, array loads
  else if op ≤ 0x3a then .fixed 2       -- stores
  else if op ≤ 0x83 then .fixed 1       -- stores of the first variables, array stores, stack, arithmetic
  else if op = 0x84 then .fixed 3       -- iinc
  else if op ≤ 0x98 then .fixed 1       -- conversions, comparisons
  else if op ≤ 0xa8 then .fixed 3       -- branches
  else if op = 0xa9 then .fixed 2       -- ret
  else if op = 0xaa then .tableSwitch
  else if op = 0xab then .lookupSwitch
  else if op ≤ 0xb1 then .fixed 1       -- returns
  else if op ≤ 0xb8 then .fixed 3       -- fields, calls
  else if op ≤ 0xba then .fixed 5       -- invokeinterface, invokedynamic
  else if op = 0xbb then .fixed 3       -- new
  else if op = 0xbc then .fixed 2       -- newarray
  else if op = 0xbd then .fixed 3       -- anewarray
  else if op ≤ 0xbf then .fixed 1       -- arraylength, athrow
  else if op ≤ 0xc1 then .fixed 3       -- checkcast, instanceof
  else if op ≤ 0xc3 then .fixed 1       -- monitors
  else if op = 0xc4 then .wide
  else if op = 0xc5 then .fixed 4       -- multianewarray
  else if op ≤ 0xc7 then .fixed 3       -- ifnull, ifnonnull
  else if op ≤ 0xc9 then .fixed 5       -- goto_w, jsr_w
  else if op = 0xca then .fixed 1       -- breakpoint
  else if op ≤ 0xfd then .unknown
  else .fixed 1                         -- impdep1, impdep2

/-- The length of the wide form of an instruction, if it has one: loads, stores and `ret`, and `iinc`. -/
def wideLength? (opcode : UInt8) : Option Nat :=
  let op := opcode.toNat
  if op = 0x84 then some 6
  else if 0x15 ≤ op ∧ op ≤ 0x19 ∨ 0x36 ≤ op ∧ op ≤ 0x3a ∨ op = 0xa9 then some 4
  else none

/-- The bytes between the opcode of a switch at an offset and the next multiple of four. -/
def padding (offset : Nat) : Nat := 3 - offset % 4

/-- A signed word of four bytes. -/
def readInt : Reader Shortage Int32 := UInt32.toInt32 <$> Reader.u32

/-- The entries of a `tableswitch`, from its default and its bounds. -/
def tableEntries : Reader Shortage (Int32 × Int32) := do
  discard readInt
  return (← readInt, ← readInt)

/-- The number of pairs of a `lookupswitch`, after its default. -/
def lookupPairs : Reader Shortage Int32 := do
  discard readInt
  readInt

/-- The length of the instruction at an offset, from its opcode and the bytes after that. -/
def length (offset : Nat) (opcode : UInt8) (after : Bytes) : Except DecodeError Nat :=
  match form opcode with
  | .fixed length => .ok length
  | .wide =>
    match after with
    | [] => .error .wideAlone
    | modified :: _ =>
      match wideLength? modified with
      | some length => .ok length
      | none => .error (.unknownWide modified)
  | .tableSwitch =>
    match after.split? (padding offset) with
    | none => .error (.operandsPastEnd (offset + 1 + padding offset))
    | some (_, operands) =>
      match tableEntries operands with
      | .error e => .error (.shortage e)
      | .ok ((low, high), _) =>
        if high.toInt < low.toInt then .error (.invertedBounds low high)
        else .ok (1 + padding offset + 12 + 4 * (high.toInt - low.toInt + 1).toNat)
  | .lookupSwitch =>
    match after.split? (padding offset) with
    | none => .error (.operandsPastEnd (offset + 1 + padding offset))
    | some (_, operands) =>
      match lookupPairs operands with
      | .error e => .error (.shortage e)
      | .ok (pairs, _) =>
        if pairs.toInt < 0 then .error (.negativePairs pairs)
        else .ok (1 + padding offset + 8 + 8 * pairs.toInt.toNat)
  | .unknown => .error (.unknownOpcode opcode)

/-- Why an instruction has no operand of two bytes: the code ends before this offset. -/
structure MissingOperand where
  offset : Nat
  deriving DecidableEq, Repr

/-- The wording of a missing operand. -/
def MissingOperand.message (e : MissingOperand) : String := s!"missing operand @ {e.offset}"

/-- The unsigned big-endian word after the opcode at an offset. -/
def operand (code : Bytes) (offset : Nat) : Except MissingOperand UInt16 :=
  match code[offset + 1]?, code[offset + 2]? with
  | none, _ => .error ⟨offset + 1⟩
  | some _, none => .error ⟨offset + 2⟩
  | some high, some low => .ok (UInt16.ofNat (Bytes.toNat [high, low]))

end Instruction
end JvmAccessors
