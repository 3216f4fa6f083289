import JvmAccessors.Bytecode.Walk
import JvmAccessors.Proofs.Bytes.Exact

/-!
# The grammar of bytecode

Code is a row of instructions. `Instruction.Encodes` says which byte strings are an instruction of an opcode at an
offset: an opcode and as many operand bytes as it always has (`Instruction.operandBytes?`), a wide form, or a switch
with its padding, its bounds or its count, and its entries. `Instruction.Spells` says that code is some instructions, one
after the other, and what is left after them.

The length that is worked out for an instruction is that of the grammar (`encodes_iff_length`), so that a walk splits
code as the grammar does: it ends without a fault exactly if the code is spelled by the instructions of the walk, with
nothing left (`Walk.complete_iff`, `complete_walk_iff_spells`).
-/

namespace JvmAccessors
namespace Instruction

/-! ## The grammar -/

/-- Opcodes before one operand byte: a number, a constant, a local variable, an array type. -/
def byteOperand : List UInt8 :=
  [0x10, 0x12,                       -- bipush, ldc
   0x15, 0x16, 0x17, 0x18, 0x19,     -- iload, lload, fload, dload, aload
   0x36, 0x37, 0x38, 0x39, 0x3a,     -- istore, lstore, fstore, dstore, astore
   0xa9, 0xbc]                       -- ret, newarray

/-- Opcodes before two operand bytes: a number, a constant, a branch, a local variable and an increment. -/
def wordOperand : List UInt8 :=
  [0x11, 0x13, 0x14, 0x84,           -- sipush, ldc_w, ldc2_w, iinc
   0x99, 0x9a, 0x9b, 0x9c, 0x9d, 0x9e,                         -- ifeq, ifne, iflt, ifge, ifgt, ifle
   0x9f, 0xa0, 0xa1, 0xa2, 0xa3, 0xa4, 0xa5, 0xa6, 0xa7, 0xa8, -- if_icmpeq to if_acmpne, goto, jsr
   0xb2, 0xb3, 0xb4, 0xb5,           -- getstatic, putstatic, getfield, putfield
   0xb6, 0xb7, 0xb8,                 -- invokevirtual, invokespecial, invokestatic
   0xbb, 0xbd, 0xc0, 0xc1,           -- new, anewarray, checkcast, instanceof
   0xc6, 0xc7]                       -- ifnull, ifnonnull

/-- Opcodes before four operand bytes: invokeinterface, invokedynamic, goto_w, jsr_w. -/
def doubleWordOperand : List UInt8 := [0xb9, 0xba, 0xc8, 0xc9]

/-- Opcodes whose instructions differ in length: tableswitch, lookupswitch, wide. -/
def variableLength : List UInt8 := [0xaa, 0xab, 0xc4]

/-- How many operand bytes an opcode always has; none from `0xcb` to `0xfd`, which are no opcodes. -/
def operandBytes? (opcode : UInt8) : Option Nat :=
  if opcode ∈ variableLength ∨ 0xcb ≤ opcode ∧ opcode ≤ 0xfd then none
  else if opcode ∈ byteOperand then some 1
  else if opcode ∈ wordOperand then some 2
  else if opcode = 0xc5 then some 3  -- multianewarray
  else if opcode ∈ doubleWordOperand then some 4
  else some 0

/-- Opcodes whose wide form has a local variable of two bytes and nothing else: the loads, the stores and ret. -/
def wideVariable : List UInt8 :=
  [0x15, 0x16, 0x17, 0x18, 0x19, 0x36, 0x37, 0x38, 0x39, 0x3a, 0xa9]

/-- A signed word of four bytes. -/
def int (n : Int32) : Bytes := Layout.u32 n.toUInt32

/-- A byte string is an instruction of an opcode at an offset. -/
inductive Encodes (offset : Nat) : UInt8 → Bytes → Prop
  | plain {opcode : UInt8} {operands : Bytes} : operandBytes? opcode = some operands.length →
      Encodes offset opcode (opcode :: operands)
  | wideIncrement {operands : Bytes} : operands.length = 4 → Encodes offset 0xc4 (0xc4 :: 0x84 :: operands)
  | wideVariable {opcode : UInt8} {operands : Bytes} : opcode ∈ wideVariable → operands.length = 2 →
      Encodes offset 0xc4 (0xc4 :: opcode :: operands)
  | tableSwitch {pad : Bytes} {default low high : Int32} {targets : List Int32} : pad.length = 3 - offset % 4 →
      low.toInt ≤ high.toInt → (targets.length : Int) = high.toInt - low.toInt + 1 →
      Encodes offset 0xaa (0xaa :: (pad ++ int default ++ int low ++ int high ++ targets.flatMap int))
  | lookupSwitch {pad : Bytes} {default count : Int32} {pairs : List (Int32 × Int32)} : pad.length = 3 - offset % 4 →
      count.toInt = pairs.length →
      Encodes offset 0xab (0xab :: (pad ++ int default ++ int count ++ pairs.flatMap fun p => int p.1 ++ int p.2))

/-- **Code as a row of instructions**: from an offset on it is the given instructions, one after the other, and then
something that is left. -/
inductive Spells : (offset : Nat) → (code : Bytes) → List Instruction → (rest : Bytes) → Prop
  | nil (offset : Nat) (rest : Bytes) : Spells offset rest [] rest
  | cons {offset : Nat} {opcode : UInt8} {chunk code rest : Bytes} {is : List Instruction} :
      Encodes offset opcode chunk → Spells (offset + chunk.length) code is rest →
      Spells offset (chunk ++ code) (⟨offset, opcode⟩ :: is) rest

/-! ## Opcodes -/

/-- What holds of the 256 bytes one by one holds of all. -/
theorem forall_byte {P : UInt8 → Prop} (h : ∀ n : Fin 256, P (.ofFin n)) (b : UInt8) : P b := h b.toFin

theorem form_eq (opcode : UInt8) : form opcode = match operandBytes? opcode with
    | some n => .fixed (n + 1)
    | none => if opcode = 0xc4 then .wide else if opcode = 0xaa then .tableSwitch
      else if opcode = 0xab then .lookupSwitch else .unknown :=
  forall_byte (P := fun opcode => form opcode = match operandBytes? opcode with
    | some n => .fixed (n + 1)
    | none => if opcode = 0xc4 then .wide else if opcode = 0xaa then .tableSwitch
      else if opcode = 0xab then .lookupSwitch else .unknown) (by decide +kernel) opcode

theorem wideLength?_eq (opcode : UInt8) :
    wideLength? opcode = if opcode = 0x84 then some 6 else if opcode ∈ wideVariable then some 4 else none :=
  forall_byte (P := fun opcode =>
    wideLength? opcode = if opcode = 0x84 then some 6 else if opcode ∈ wideVariable then some 4 else none)
    (by decide +kernel) opcode

/-! ## Signed words -/

theorem readInt_eq_ok {b rest : Bytes} {n : Int32} : readInt b = .ok (n, rest) ↔ b = int n ++ rest := by
  simp only [readInt, Reader.map_eq_ok, Reader.u32_eq_ok, int]
  constructor
  · rintro ⟨u, rfl, rfl⟩
    rfl
  · rintro rfl
    exact ⟨n.toUInt32, rfl, rfl⟩

theorem tableEntries_eq_ok {b rest : Bytes} {low high : Int32} :
    tableEntries b = .ok ((low, high), rest) ↔ ∃ default, b = int default ++ int low ++ int high ++ rest := by
  simp only [tableEntries, Reader.bind_eq_ok, Reader.discard_eq_ok, readInt_eq_ok, Reader.pure_eq_ok]
  constructor
  · rintro ⟨_, _, ⟨default, rfl⟩, _, _, rfl, _, _, rfl, h, rfl⟩
    cases h
    exact ⟨default, by simp⟩
  · rintro ⟨default, rfl⟩
    exact ⟨(), _, ⟨default, by simp⟩, low, _, rfl, high, _, rfl, rfl, rfl⟩

theorem lookupPairs_eq_ok {b rest : Bytes} {count : Int32} :
    lookupPairs b = .ok (count, rest) ↔ ∃ default, b = int default ++ int count ++ rest := by
  simp only [lookupPairs, Reader.bind_eq_ok, Reader.discard_eq_ok, readInt_eq_ok]
  constructor
  · rintro ⟨_, _, ⟨default, rfl⟩, rfl⟩
    exact ⟨default, by simp⟩
  · rintro ⟨default, rfl⟩
    exact ⟨(), _, ⟨default, by simp⟩, rfl⟩

@[simp] theorem length_int (n : Int32) : (int n).length = 4 := Bytes.length_ofNat _ _

theorem length_pair (p : Int32 × Int32) : (int p.1 ++ int p.2).length = 8 := by simp

theorem exists_int {b : Bytes} (h : b.length = 4) : ∃ n, b = int n := by
  have hlt : Bytes.toNat b < Bytes.capacity 4 := h ▸ Bytes.toNat_lt b
  refine ⟨(UInt32.ofNat (Bytes.toNat b)).toInt32, ?_⟩
  have hb := Bytes.ofNat_toNat b
  rw [h] at hb
  rw [int, UInt32.toUInt32_toInt32, Layout.u32, UInt32.toNat_ofNat_of_lt' hlt, hb]

theorem exists_pair {b : Bytes} (h : b.length = 8) : ∃ p : Int32 × Int32, b = int p.1 ++ int p.2 := by
  obtain ⟨m, hm⟩ := exists_int (b := b.take 4) (by simp; omega)
  obtain ⟨n, hn⟩ := exists_int (b := b.drop 4) (by simp; omega)
  exact ⟨(m, n), by rw [← hm, ← hn, List.take_append_drop]⟩

section Rows

variable {α : Type} {write : α → Bytes} {width : Nat}

theorem length_flatMap (h : ∀ a, (write a).length = width) : ∀ as : List α, (as.flatMap write).length = width * as.length
  | [] => rfl
  | a :: as => by
    rw [List.flatMap_cons, List.length_append, h, length_flatMap h as, List.length_cons, Nat.mul_succ, Nat.add_comm]

/-- If any bytes of a width are an entry, any bytes of a multiple of it are a row of entries. -/
theorem exists_flatMap (h : ∀ b : Bytes, b.length = width → ∃ a, b = write a) :
    ∀ {n : Nat} {b : Bytes}, b.length = width * n → ∃ as : List α, as.length = n ∧ b = as.flatMap write
  | 0, b, hb => ⟨[], rfl, List.eq_nil_of_length_eq_zero hb⟩
  | n + 1, b, hb => by
    rw [Nat.mul_succ] at hb
    obtain ⟨a, ha⟩ := h (b.take width) (by simp; omega)
    obtain ⟨as, hl, has⟩ := exists_flatMap h (n := n) (b := b.drop width) (by simp; omega)
    exact ⟨a :: as, by simp [hl], by rw [List.flatMap_cons, ← ha, ← has, List.take_append_drop]⟩

end Rows

/-! ## The length of an instruction -/

section Length

variable {offset n : Nat} {opcode : UInt8} {after : Bytes}

theorem length_plain (h : operandBytes? opcode = some n) : length offset opcode after = .ok (n + 1) := by
  simp only [length, form_eq, h]

theorem length_wide_eq_ok :
    length offset 0xc4 after = .ok n ↔ ∃ modified rest, after = modified :: rest ∧ wideLength? modified = some n := by
  have hf : form 0xc4 = .wide := rfl
  simp only [length, hf]
  cases after with
  | nil => simp
  | cons modified rest => cases h : wideLength? modified <;> simp [h]

theorem split?_padding_eq {pad operands : Bytes} :
    after.split? (padding offset) = some (pad, operands) ↔ pad.length = 3 - offset % 4 ∧ after = pad ++ operands := by
  constructor
  · exact Bytes.eq_append_of_split?
  · rintro ⟨h, rfl⟩
    rw [padding, ← h]
    exact Bytes.split?_append pad operands

theorem length_table_eq_ok : length offset 0xaa after = .ok n ↔ ∃ pad default low high rest,
    pad.length = 3 - offset % 4 ∧ after = pad ++ (int default ++ int low ++ int high ++ rest) ∧
    low.toInt ≤ high.toInt ∧ n = 1 + pad.length + 12 + 4 * (high.toInt - low.toInt + 1).toNat := by
  have hf : form 0xaa = .tableSwitch := rfl
  simp only [length, hf]
  constructor
  · intro h
    split at h
    · cases h
    · rename_i pad operands hs
      split at h
      · cases h
      · rename_i low high rest he
        split at h
        · cases h
        · obtain ⟨hp, rfl⟩ := split?_padding_eq.mp hs
          obtain ⟨default, rfl⟩ := tableEntries_eq_ok.mp he
          cases h
          exact ⟨pad, default, low, high, rest, hp, rfl, by omega, by rw [padding, hp]⟩
  · rintro ⟨pad, default, low, high, rest, hp, rfl, hle, rfl⟩
    rw [split?_padding_eq.mpr ⟨hp, rfl⟩]
    simp only [tableEntries_eq_ok.mpr ⟨default, rfl⟩, if_neg (Int.not_lt.mpr hle), padding, hp]

theorem length_lookup_eq_ok : length offset 0xab after = .ok n ↔ ∃ pad default count rest,
    pad.length = 3 - offset % 4 ∧ after = pad ++ (int default ++ int count ++ rest) ∧
    0 ≤ count.toInt ∧ n = 1 + pad.length + 8 + 8 * count.toInt.toNat := by
  have hf : form 0xab = .lookupSwitch := rfl
  simp only [length, hf]
  constructor
  · intro h
    split at h
    · cases h
    · rename_i pad operands hs
      split at h
      · cases h
      · rename_i count rest he
        split at h
        · cases h
        · obtain ⟨hp, rfl⟩ := split?_padding_eq.mp hs
          obtain ⟨default, rfl⟩ := lookupPairs_eq_ok.mp he
          cases h
          exact ⟨pad, default, count, rest, hp, rfl, by omega, by rw [padding, hp]⟩
  · rintro ⟨pad, default, count, rest, hp, rfl, hle, rfl⟩
    rw [split?_padding_eq.mpr ⟨hp, rfl⟩]
    simp only [lookupPairs_eq_ok.mpr ⟨default, rfl⟩, if_neg (Int.not_lt.mpr hle), padding, hp]

/-- An opcode that has a length at all always has the same operands, or is `wide` or one of the switches. -/
theorem opcode_of_length_eq_ok (h : length offset opcode after = .ok n) :
    operandBytes? opcode = some (n - 1) ∧ 0 < n ∨ opcode = 0xc4 ∨ opcode = 0xaa ∨ opcode = 0xab := by
  cases ho : operandBytes? opcode with
  | some k =>
    rw [length_plain ho] at h
    cases h
    exact .inl ⟨rfl, Nat.succ_pos k⟩
  | none =>
    refine Decidable.byContradiction fun hn => ?_
    simp only [reduceCtorEq, false_and, false_or, not_or] at hn
    simp [length, form_eq, ho, hn.1, hn.2.1, hn.2.2] at h

theorem length_pos (h : length offset opcode after = .ok n) : 0 < n := by
  rcases opcode_of_length_eq_ok h with ⟨_, hn⟩ | rfl | rfl | rfl
  · exact hn
  · obtain ⟨modified, _, _, hm⟩ := length_wide_eq_ok.mp h
    rw [wideLength?_eq] at hm
    split at hm
    · cases hm; decide
    · split at hm <;> cases hm
      decide
  · obtain ⟨_, _, _, _, _, _, _, _, rfl⟩ := length_table_eq_ok.mp h
    omega
  · obtain ⟨_, _, _, _, _, _, _, rfl⟩ := length_lookup_eq_ok.mp h
    omega

end Length

/-! ## The length is that of the grammar -/

/-- The length of an instruction of the grammar, whatever follows it. -/
theorem Encodes.length_eq {offset : Nat} {opcode : UInt8} {chunk : Bytes} (h : Encodes offset opcode chunk) :
    ∃ operands, chunk = opcode :: operands ∧
      ∀ rest, length offset opcode (operands ++ rest) = .ok (operands.length + 1) := by
  cases h with
  | plain h => exact ⟨_, rfl, fun _ => length_plain h⟩
  | wideIncrement h =>
    refine ⟨_, rfl, fun rest => length_wide_eq_ok.mpr ⟨0x84, _, rfl, ?_⟩⟩
    rw [wideLength?_eq, if_pos rfl, List.length_cons, h]
  | @wideVariable modified operands hm h =>
    refine ⟨_, rfl, fun rest => length_wide_eq_ok.mpr ⟨modified, _, rfl, ?_⟩⟩
    have hne : modified ≠ 0x84 := by
      rintro rfl
      exact absurd hm (by decide)
    rw [wideLength?_eq, if_neg hne, if_pos hm, List.length_cons, h]
  | @tableSwitch pad default low high targets hp hle hl =>
    refine ⟨_, rfl, fun rest => length_table_eq_ok.mpr
      ⟨pad, default, low, high, targets.flatMap int ++ rest, hp, by simp, hle, ?_⟩⟩
    have ht := length_flatMap length_int targets
    simp only [List.length_append, length_int, ht]
    omega
  | @lookupSwitch pad default count pairs hp hc =>
    refine ⟨_, rfl, fun rest => length_lookup_eq_ok.mpr
      ⟨pad, default, count, pairs.flatMap (fun p => int p.1 ++ int p.2) ++ rest, hp, by simp, by omega, ?_⟩⟩
    have ht := length_flatMap length_pair pairs
    simp only [List.length_append, length_int, ht]
    omega

theorem exists_append_of_length_le {a b c d : Bytes} (h : a ++ b = c ++ d) (hl : c.length ≤ a.length) :
    ∃ e, a = c ++ e ∧ d = e ++ b := by
  obtain ⟨e, rfl⟩ := List.prefix_of_prefix_length_le ⟨d, h.symm⟩ ⟨b, rfl⟩ hl
  exact ⟨e, rfl, by simpa using h.symm⟩

/-- **The length of an instruction is that of the grammar**: an opcode and operands in front of others are an
instruction exactly if their length is the one that is worked out. -/
theorem encodes_iff_length {offset : Nat} {opcode : UInt8} {operands : Bytes} (rest : Bytes) :
    Encodes offset opcode (opcode :: operands) ↔
      length offset opcode (operands ++ rest) = .ok (operands.length + 1) := by
  constructor
  · intro h
    obtain ⟨_, he, h⟩ := h.length_eq
    cases he
    exact h rest
  intro h
  rcases opcode_of_length_eq_ok h with ⟨ho, _⟩ | rfl | rfl | rfl
  · exact .plain ho
  · obtain ⟨modified, tail, he, hm⟩ := length_wide_eq_ok.mp h
    cases operands with
    | nil =>
      rw [wideLength?_eq] at hm
      split at hm
      · cases hm
      · split at hm <;> cases hm
    | cons m operands =>
      cases he
      rw [wideLength?_eq] at hm
      split at hm
      · rename_i h84
        subst h84
        exact .wideIncrement (by simpa using Option.some.inj hm.symm)
      · split at hm
        · rename_i hv
          exact .wideVariable hv (by simpa using Option.some.inj hm.symm)
        · cases hm
  · obtain ⟨pad, default, low, high, tail, hp, he, hle, hl⟩ := length_table_eq_ok.mp h
    -- the head of the switch lies inside the operands, because the length counts it; the rest is the targets
    obtain ⟨targets, rfl, -⟩ := exists_append_of_length_le (c := pad ++ (int default ++ int low ++ int high))
      (d := tail) (by rw [he]; simp) (by simp; omega)
    simp only [List.length_append, length_int] at hl
    obtain ⟨targets, ht, rfl⟩ := exists_flatMap (fun _ => exists_int) (n := (high.toInt - low.toInt + 1).toNat)
      (b := targets) (by omega)
    have hs : (targets.length : Int) = high.toInt - low.toInt + 1 := by omega
    simpa using Encodes.tableSwitch hp hle hs
  · obtain ⟨pad, default, count, tail, hp, he, hle, hl⟩ := length_lookup_eq_ok.mp h
    obtain ⟨pairs, rfl, -⟩ := exists_append_of_length_le (c := pad ++ (int default ++ int count))
      (d := tail) (by rw [he]; simp) (by simp; omega)
    simp only [List.length_append, length_int] at hl
    obtain ⟨pairs, ht, rfl⟩ := exists_flatMap (fun _ => exists_pair) (n := count.toInt.toNat) (b := pairs) (by omega)
    have hs : count.toInt = pairs.length := by omega
    simpa using Encodes.lookupSwitch hp hs

end Instruction

/-! ## Walks -/

namespace Walk

open Instruction

theorem resume_append : ∀ (skipped : Bytes) (offset : Nat) (rest : Bytes),
    resume offset skipped.length (skipped ++ rest) = resume (offset + skipped.length) 0 rest
  | [], _, _ => rfl
  | _ :: skipped, offset, rest => by
    rw [List.length_cons, List.cons_append, resume, resume_append skipped, Nat.add_assoc, Nat.add_comm 1]

/-- One step: an instruction that stands in front is noted, and the walk goes on after it. -/
theorem resume_of_encodes {offset : Nat} {opcode : UInt8} {chunk : Bytes} (h : Encodes offset opcode chunk)
    (rest : Bytes) : resume offset 0 (chunk ++ rest) = .step ⟨offset, opcode⟩ (resume (offset + chunk.length) 0 rest) := by
  obtain ⟨operands, rfl, hl⟩ := h.length_eq
  rw [List.cons_append, resume, hl rest]
  simp only [Nat.add_sub_cancel, Bytes.split?_append, resume_append, List.length_cons]
  rw [Nat.add_assoc, Nat.add_comm 1]

/-- A walk that does not step stops: if it notes no instruction before more bytes, none stands there. -/
theorem resume_cases (offset : Nat) (opcode : UInt8) (after : Bytes) :
    (∃ operands rest, after = operands ++ rest ∧ Encodes offset opcode (opcode :: operands)) ∨
      ∃ cause, resume offset 0 (opcode :: after) = .fault ⟨offset, cause⟩ := by
  rw [resume]
  cases hl : length offset opcode after with
  | error e => exact .inr ⟨e, rfl⟩
  | ok n =>
    cases hs : after.split? (n - 1) with
    | none => exact .inr ⟨.truncated opcode, by simp only [hs]⟩
    | some parts =>
      obtain ⟨operands, rest⟩ := parts
      obtain ⟨ho, rfl⟩ := Bytes.eq_append_of_split? hs
      have hn := length_pos hl
      refine .inl ⟨operands, rest, rfl, (encodes_iff_length rest).mpr ?_⟩
      rw [hl, ho, Nat.sub_add_cancel hn]

/-- The instructions of a walk spell the code up to where it stops, and it stops before the end exactly at a fault. -/
theorem spells_resume (offset : Nat) (code : Bytes) : ∃ rest,
    Spells offset code (resume offset 0 code).instructions rest ∧ ((resume offset 0 code).fault? = none ↔ rest = []) := by
  match code with
  | [] => exact ⟨[], .nil offset [], by simp [resume, fault?]⟩
  | opcode :: after =>
    rcases resume_cases offset opcode after with ⟨operands, rest, rfl, he⟩ | ⟨cause, hf⟩
    · obtain ⟨rest', hs, hr⟩ := spells_resume (offset + (opcode :: operands).length) rest
      have hstep := resume_of_encodes he rest
      rw [List.cons_append] at hstep
      refine ⟨rest', ?_, ?_⟩
      · rw [hstep]
        exact .cons he hs
      · rw [hstep]
        exact hr
    · exact ⟨opcode :: after, by rw [hf]; exact .nil _ _, by simp [hf, fault?]⟩
termination_by code.length
decreasing_by
  rename_i h
  simp only [h, List.length_cons, List.length_append]
  omega

/-- The walk over code that is spelled by some instructions notes these, and goes on with what is left. -/
theorem resume_of_spells {offset : Nat} {code rest : Bytes} {is : List Instruction} (h : Spells offset code is rest) :
    ∃ stop, resume offset 0 code = is.foldr step (resume stop 0 rest) := by
  induction h with
  | nil offset rest => exact ⟨offset, rfl⟩
  | cons he _ ih =>
    obtain ⟨stop, ih⟩ := ih
    exact ⟨stop, by rw [resume_of_encodes he, ih, List.foldr_cons]⟩

theorem instructions_foldr (w : Walk) : ∀ is : List Instruction, (is.foldr step w).instructions = is ++ w.instructions
  | [] => rfl
  | i :: is => by rw [List.foldr_cons, instructions, instructions_foldr w is, List.cons_append]

theorem fault?_foldr (w : Walk) : ∀ is : List Instruction, (is.foldr step w).fault? = w.fault?
  | [] => rfl
  | _ :: is => by rw [List.foldr_cons, fault?, fault?_foldr w is]

/-- A walk comes to the end with some instructions exactly if the code is these instructions, one after the other. -/
theorem complete_iff {code : Bytes} {is : List Instruction} :
    (ofCode code).fault? = none ∧ (ofCode code).instructions = is ↔ Spells 0 code is [] := by
  constructor
  · rintro ⟨hf, rfl⟩
    obtain ⟨rest, hs, hr⟩ := spells_resume 0 code
    rw [hr.mp hf] at hs
    exact hs
  · intro h
    obtain ⟨stop, he⟩ := resume_of_spells h
    rw [ofCode, he, instructions_foldr, fault?_foldr]
    simp [resume, instructions, fault?]

end Walk

namespace Instruction

theorem Spells.offset_le {offset : Nat} {code rest : Bytes} {is : List Instruction} (h : Spells offset code is rest) :
    ∀ i ∈ is, offset ≤ i.offset := by
  induction h with
  | nil => simp
  | cons _ _ ih =>
    intro i hi
    rcases List.mem_cons.mp hi with rfl | hi
    · exact Nat.le_refl _
    · exact Nat.le_trans (Nat.le_add_right _ _) (ih i hi)

/-- An instruction stands where it is said to, and no other starts between its opcode and its end. -/
theorem Spells.chunk_of_mem {offset : Nat} {code rest : Bytes} {is : List Instruction} (h : Spells offset code is rest)
    {i : Instruction} (hi : i ∈ is) : ∃ before chunk after, code = before ++ chunk ++ after ∧
      offset + before.length = i.offset ∧ Encodes i.offset i.opcode chunk ∧
      ∀ j ∈ is, j.offset ≤ i.offset ∨ i.offset + chunk.length ≤ j.offset := by
  induction h with
  | nil => simp at hi
  | @cons offset opcode chunk code rest is he hs ih =>
    rcases List.mem_cons.mp hi with rfl | hi
    · refine ⟨[], chunk, code, by simp, by simp, he, fun j hj => ?_⟩
      rcases List.mem_cons.mp hj with rfl | hj
      · exact .inl (Nat.le_refl _)
      · exact .inr (hs.offset_le j hj)
    · obtain ⟨before, chunk', after, rfl, ho, he', hj⟩ := ih hi
      refine ⟨chunk ++ before, chunk', after, by simp, by rw [List.length_append]; omega, he', fun j hm => ?_⟩
      rcases List.mem_cons.mp hm with rfl | hm
      · exact .inl (Nat.le_trans (Nat.le_add_right _ _) (hs.offset_le i hi))
      · exact hj j hm

/-- **A walk accepts exactly the grammar.** It ends without a fault, with the given instructions, exactly if the code is
these instructions one after the other; and no instruction of a walk, faulty or not, starts inside another one. -/
theorem complete_walk_iff_spells (code : Bytes) (is : List Instruction) :
    ((Walk.ofCode code).fault? = none ∧ (Walk.ofCode code).instructions = is ↔ Spells 0 code is []) ∧
      ∀ i ∈ (Walk.ofCode code).instructions, ∃ before chunk after, code = before ++ chunk ++ after ∧
        before.length = i.offset ∧ Encodes i.offset i.opcode chunk ∧
        ∀ j ∈ (Walk.ofCode code).instructions, j.offset ≤ i.offset ∨ i.offset + chunk.length ≤ j.offset := by
  refine ⟨Walk.complete_iff, fun i hi => ?_⟩
  obtain ⟨rest, hs, -⟩ := Walk.spells_resume 0 code
  obtain ⟨before, chunk, after, hc, ho, he, hj⟩ := hs.chunk_of_mem hi
  exact ⟨before, chunk, after, hc, by simpa using ho, he, hj⟩

/-- Code with a `tableswitch` of two entries, whose padding is a byte that elsewhere would be a `getfield`. -/
def tableSwitchCode : Bytes :=
  [0x00, 0x1a, 0xaa, 0xb4] ++ [0, 0, 0, 0] ++ [0, 0, 0, 0] ++ [0, 0, 0, 1] ++ [0, 0, 0, 22, 0, 0, 0, 22] ++ [0xb1]

/-- The switch is one instruction of 22 bytes, and what stands in it is none. -/
theorem spells_tableSwitchCode :
    Spells 0 tableSwitchCode [⟨0, 0x00⟩, ⟨1, 0x1a⟩, ⟨2, 0xaa⟩, ⟨24, 0xb1⟩] [] ∧
      ∃ before chunk after, tableSwitchCode = before ++ chunk ++ after ∧ before.length = 2 ∧ Encodes 2 0xaa chunk ∧
        ∀ j ∈ (Walk.ofCode tableSwitchCode).instructions, j.offset ≤ 2 ∨ 2 + chunk.length ≤ j.offset :=
  ⟨(complete_walk_iff_spells tableSwitchCode [⟨0, 0x00⟩, ⟨1, 0x1a⟩, ⟨2, 0xaa⟩, ⟨24, 0xb1⟩]).1.mp ⟨by decide, by decide⟩,
    (complete_walk_iff_spells tableSwitchCode []).2 ⟨2, 0xaa⟩ (by decide)⟩

end Instruction
end JvmAccessors
