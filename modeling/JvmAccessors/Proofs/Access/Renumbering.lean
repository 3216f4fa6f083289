import JvmAccessors.Proofs.Access.Answers
import JvmAccessors.Proofs.Bytecode.Concatenation
import JvmAccessors.Proofs.ClassFile.Lookups
import JvmAccessors.Proofs.ClassFile.Slots

/-!
# Code for another pool

The numbers that field instructions name their fields by are those of one pool. `Scan.renumber` rewrites them in place,
and nothing else of the code (`Scan.renumbers_renumber`). A walk never looks at the operand of a field instruction, so it
comes to the same instructions before and after (`Scan.ofCode_of_agree`). Main statement: a scan of the rewritten code
answers what it answered before, if in the other pool the new numbers lead to the same fields (`scan_renumber`).
-/

namespace JvmAccessors

/-! ## Operands in place -/

namespace Instruction

/-- The code with another operand of two bytes after the opcode at an offset. -/
def putOperand (code : Bytes) (offset : Nat) (index : UInt16) : Bytes :=
  (code.set (offset + 1) (UInt8.ofNat (index.toNat / 256))).set (offset + 2) (UInt8.ofNat (index.toNat % 256))

/-- The two bytes after the opcode at an offset are the big-endian spelling of a number. -/
def HasOperand (code : Bytes) (offset : Nat) (index : UInt16) : Prop :=
  code[offset + 1]? = some (UInt8.ofNat (index.toNat / 256)) ∧
    code[offset + 2]? = some (UInt8.ofNat (index.toNat % 256))

variable {code : Bytes} {offset : Nat} {index : UInt16}

@[simp] theorem length_putOperand (code : Bytes) (offset : Nat) (index : UInt16) :
    (putOperand code offset index).length = code.length := by
  rw [putOperand, List.length_set, List.length_set]

theorem getElem?_putOperand {n : Nat} (h1 : n ≠ offset + 1) (h2 : n ≠ offset + 2) :
    (putOperand code offset index)[n]? = code[n]? := by
  rw [putOperand, List.getElem?_set_ne h2.symm, List.getElem?_set_ne h1.symm]

theorem hasOperand_putOperand (h : offset + 2 < code.length) : HasOperand (putOperand code offset index) offset index := by
  constructor
  · rw [putOperand, List.getElem?_set_ne (by omega), List.getElem?_set_self (by omega)]
  · rw [putOperand, List.getElem?_set_self (by rw [List.length_set]; exact h)]

/-- Such an operand is read back as the number, however great it is. -/
theorem HasOperand.operand_eq (h : HasOperand code offset index) : operand code offset = .ok index := by
  have hlt := index.toNat_lt
  refine operand_eq_ok_iff.mpr ⟨_, _, h.1, h.2, ?_⟩
  rw [UInt8.toNat_ofNat_of_lt' (by show index.toNat / 256 < 2 ^ 8; omega),
    UInt8.toNat_ofNat_of_lt' (by show index.toNat % 256 < 2 ^ 8; omega)]
  omega

/-- An offset with an operand has two bytes after it. -/
theorem lt_length_of_operand (h : operand code offset = .ok index) : offset + 2 < code.length := by
  obtain ⟨_, low, _, hl, _⟩ := operand_eq_ok_iff.mp h
  obtain ⟨hlt, _⟩ := List.getElem?_eq_some_iff.mp hl
  exact hlt

end Instruction

open Instruction

/-! ## Walks and operands -/

namespace Scan

/-- A position holds a byte of the operand of one of the field instructions among some instructions. -/
def InOperand (is : List Instruction) (n : Nat) : Prop :=
  ∃ i ∈ is, i.opcode ∈ fieldOpcodes ∧ (n = i.offset + 1 ∨ n = i.offset + 2)

theorem not_inOperand_nil (n : Nat) : ¬ InOperand [] n := by
  intro h
  obtain ⟨i, hi, -⟩ := h
  cases hi

theorem inOperand_cons {i : Instruction} {is : List Instruction} {n : Nat} : InOperand (i :: is) n ↔
    i.opcode ∈ fieldOpcodes ∧ (n = i.offset + 1 ∨ n = i.offset + 2) ∨ InOperand is n := by
  simp [InOperand]

/-- The operands of some instructions stand behind the start of the first. -/
theorem not_inOperand_of_le {start n : Nat} {code rest : Bytes} {is : List Instruction}
    (h : Spells start code is rest) (hn : n ≤ start) : ¬ InOperand is n := by
  intro hin
  obtain ⟨i, hi, -, hpos⟩ := hin
  have hle := h.offset_le i hi
  omega

/-- A field instruction is three bytes: its opcode and any operand. -/
theorem encodes_iff_of_mem {offset : Nat} {opcode : UInt8} (h : opcode ∈ fieldOpcodes) {operands : Bytes} :
    Encodes offset opcode (opcode :: operands) ↔ operands.length = 2 := by
  rw [encodes_iff_length [], length_plain (operandBytes?_of_mem h), Except.ok.injEq]
  omega

theorem length_of_encodes {offset : Nat} {opcode : UInt8} {chunk : Bytes} (h : opcode ∈ fieldOpcodes)
    (he : Encodes offset opcode chunk) : chunk.length = 3 := by
  obtain ⟨operands, rfl, -⟩ := he.length_eq
  rw [List.length_cons, (encodes_iff_of_mem h).mp he]

/-- Bytes in the place of an instruction are one of the same opcode if they differ in the operand of a field instruction
only. -/
theorem encodes_of_agree {offset : Nat} {opcode : UInt8} {chunk chunk' : Bytes} (h : Encodes offset opcode chunk)
    (hl : chunk'.length = chunk.length)
    (ha : ∀ n < chunk.length, ¬ (opcode ∈ fieldOpcodes ∧ (n = 1 ∨ n = 2)) → chunk'[n]? = chunk[n]?) :
    Encodes offset opcode chunk' := by
  by_cases hf : opcode ∈ fieldOpcodes
  · have hthree := length_of_encodes hf h
    obtain ⟨operands, rfl, -⟩ := h.length_eq
    have h0 : chunk'[0]? = some opcode := ha 0 (Nat.succ_pos _) (by omega)
    cases chunk' with
    | nil => cases h0
    | cons first operands' =>
      obtain rfl := Option.some.inj h0
      rw [hthree, List.length_cons] at hl
      exact (encodes_iff_of_mem hf).mpr (by omega)
  · have he : chunk' = chunk := by
      apply List.ext_getElem?
      intro n
      by_cases hn : n < chunk.length
      · exact ha n hn fun h => hf h.1
      · rw [List.getElem?_eq_none (by omega), List.getElem?_eq_none (by omega)]
    rw [he]
    exact h

/-- **Code stays the same instructions** if bytes change in the operands of its field instructions only. -/
theorem spells_of_agree {offset : Nat} {code rest : Bytes} {is : List Instruction} (h : Spells offset code is rest) :
    ∀ {code' : Bytes}, code'.length = code.length →
      (∀ n, ¬ InOperand is (offset + n) → code'[n]? = code[n]?) → Spells offset code' is rest := by
  induction h with
  | nil offset rest =>
    intro code' _ ha
    have he : code' = rest := List.ext_getElem? fun n => ha n (not_inOperand_nil _)
    rw [he]
    exact .nil offset rest
  | @cons offset opcode chunk code rest is he hs ih =>
    intro code' hl ha
    simp only [inOperand_cons] at ha
    rw [List.length_append] at hl
    have hlen : (code'.take chunk.length).length = chunk.length := by
      rw [List.length_take]
      omega
    have hchunk : Encodes offset opcode (code'.take chunk.length) := by
      apply encodes_of_agree he hlen
      intro n hlt hn
      have hcode : (chunk ++ code)[n]? = chunk[n]? := List.getElem?_append_left hlt
      rw [List.getElem?_take_of_lt hlt, ← hcode]
      apply ha
      intro hin
      rcases hin with ⟨hf, hpos⟩ | hin
      · exact hn ⟨hf, by omega⟩
      · exact not_inOperand_of_le hs (by omega) hin
    have hrest : Spells (offset + chunk.length) (code'.drop chunk.length) is rest := by
      apply ih
      · rw [List.length_drop]
        omega
      · intro n hn
        rw [List.getElem?_drop, ha (chunk.length + n), List.getElem?_append_right (by omega), Nat.add_sub_cancel_left]
        intro hin
        rcases hin with ⟨hf, hpos⟩ | hin
        · have hthree := length_of_encodes hf he
          omega
        · exact hn (by rwa [Nat.add_assoc])
    rw [← List.take_append_drop chunk.length code']
    exact .cons hchunk (hlen.symm ▸ hrest)

/-- A walk does not look at the operands of field instructions. -/
theorem ofCode_of_agree {code code' : Bytes} (hl : code'.length = code.length)
    (ha : ∀ n, ¬ InOperand (Walk.ofCode code).instructions n → code'[n]? = code[n]?) :
    Walk.ofCode code' = Walk.ofCode code := by
  obtain ⟨rest, hs, -⟩ := Walk.spells_resume 0 code
  have hs' : Spells 0 code' (Walk.ofCode code).instructions rest := by
    apply spells_of_agree hs hl
    intro n hn
    rw [Nat.zero_add] at hn
    exact ha n hn
  obtain ⟨stop, hstop, hw⟩ := Walk.resume_append_of_spells hs []
  obtain ⟨stop', hstop', hw'⟩ := Walk.resume_append_of_spells hs' []
  have he : stop' = stop := by omega
  rw [List.append_nil, List.append_nil] at hw hw'
  rw [Walk.ofCode, Walk.ofCode, hw, hw', he]
  rfl

/-! ## Rewriting the operands -/

/-- The bytes so far, with the operand of a field instruction of the code rewritten. -/
def rewrite (r : Index → Index) (code patched : Bytes) (i : Instruction) : Bytes :=
  match operand code i.offset with
  | .error _ => patched
  | .ok index => putOperand patched i.offset (r index)

/-- The code with the operands of all its field instructions rewritten. -/
def renumber (r : Index → Index) (code : Bytes) : Bytes := (fieldInstructions code).foldl (rewrite r code) code

/-- **Some code is other code with its fields renumbered**: it has as many bytes, the two bytes after the opcode of each
field instruction spell the new number of what they spelled before, and all other bytes are the same. -/
structure Renumbers (r : Index → Index) (code code' : Bytes) : Prop where
  length : code'.length = code.length
  operands : ∀ i ∈ fieldInstructions code, ∀ index, operand code i.offset = .ok index →
    HasOperand code' i.offset (r index)
  others : ∀ n, ¬ InOperand (Walk.ofCode code).instructions n → code'[n]? = code[n]?

section Rewriting

variable {r : Index → Index} {code : Bytes}

theorem length_rewrite (patched : Bytes) (i : Instruction) : (rewrite r code patched i).length = patched.length := by
  unfold rewrite
  split
  · rfl
  · exact length_putOperand _ _ _

theorem getElem?_rewrite {patched : Bytes} {i : Instruction} {n : Nat} (h1 : n ≠ i.offset + 1) (h2 : n ≠ i.offset + 2) :
    (rewrite r code patched i)[n]? = patched[n]? := by
  unfold rewrite
  split
  · rfl
  · exact getElem?_putOperand h1 h2

theorem length_foldl_rewrite (is : List Instruction) (patched : Bytes) :
    (is.foldl (rewrite r code) patched).length = patched.length := by
  induction is generalizing patched with
  | nil => rfl
  | cons i is ih => rw [List.foldl_cons, ih, length_rewrite]

/-- Rewriting changes nothing outside the operands of the instructions that it is done for. -/
theorem getElem?_foldl_rewrite {is : List Instruction} {n : Nat}
    (h : ∀ i ∈ is, n ≠ i.offset + 1 ∧ n ≠ i.offset + 2) (patched : Bytes) :
    (is.foldl (rewrite r code) patched)[n]? = patched[n]? := by
  induction is generalizing patched with
  | nil => rfl
  | cons i is ih =>
    obtain ⟨hi, his⟩ := List.forall_mem_cons.mp h
    rw [List.foldl_cons, ih his, getElem?_rewrite hi.1 hi.2]

/-- Instructions of three bytes that do not overlap have their new operands in the end. -/
theorem hasOperand_foldl_rewrite {is : List Instruction} (hd : is.Pairwise fun i j => i.offset + 3 ≤ j.offset)
    (patched : Bytes) (hl : patched.length = code.length) {i : Instruction} (hi : i ∈ is) {index : Index}
    (ho : operand code i.offset = .ok index) :
    HasOperand (is.foldl (rewrite r code) patched) i.offset (r index) := by
  induction is generalizing patched with
  | nil => cases hi
  | cons j is ih =>
    obtain ⟨hj, his⟩ := List.pairwise_cons.mp hd
    rw [List.foldl_cons]
    rcases List.mem_cons.mp hi with rfl | hi
    · -- the operands that are rewritten later stand behind this one
      have hlater (n : Nat) (hn : n ≤ i.offset + 2) : ∀ j ∈ is, n ≠ j.offset + 1 ∧ n ≠ j.offset + 2 := by
        intro j hm
        have hle := hj j hm
        omega
      have hput : HasOperand (rewrite r code patched i) i.offset (r index) := by
        rw [rewrite, ho]
        exact hasOperand_putOperand (hl ▸ lt_length_of_operand ho)
      constructor
      · rw [getElem?_foldl_rewrite (hlater _ (by omega))]
        exact hput.1
      · rw [getElem?_foldl_rewrite (hlater _ (by omega))]
        exact hput.2
    · exact ih his _ (by rw [length_rewrite, hl]) hi

/-- Field instructions do not overlap. -/
theorem pairwise_of_spells {offset : Nat} {code rest : Bytes} {is : List Instruction}
    (h : Spells offset code is rest) :
    (is.filter fun i => i.opcode ∈ fieldOpcodes).Pairwise fun i j => i.offset + 3 ≤ j.offset := by
  induction h with
  | nil => exact .nil
  | @cons offset opcode chunk code rest is he hs ih =>
    by_cases hf : opcode ∈ fieldOpcodes
    · rw [List.filter_cons_of_pos (by simpa using hf), List.pairwise_cons]
      refine ⟨fun j hj => ?_, ih⟩
      have hle := hs.offset_le j (List.mem_filter.mp hj).1
      rw [length_of_encodes hf he] at hle
      exact hle
    · rw [List.filter_cons_of_neg (by simpa using hf)]
      exact ih

theorem renumbers_renumber (r : Index → Index) (code : Bytes) : Renumbers r code (renumber r code) where
  length := length_foldl_rewrite _ _
  operands i hi index ho := by
    obtain ⟨rest, hs, -⟩ := Walk.spells_resume 0 code
    exact hasOperand_foldl_rewrite (pairwise_of_spells hs) code rfl hi ho
  others n hn := by
    apply getElem?_foldl_rewrite
    intro i hi
    obtain ⟨hw, hf⟩ := List.mem_filter.mp hi
    constructor
    · intro h
      exact hn ⟨i, hw, of_decide_eq_true hf, .inl h⟩
    · intro h
      exact hn ⟨i, hw, of_decide_eq_true hf, .inr h⟩

end Rewriting

end Scan

/-! ## Scans of renumbered code -/

/-- A number of a pool is that of a field with these texts. -/
def Pool.IsField (p : Pool) (i : Index) (parts : FieldParts) : Prop :=
  ∃ owner nameAndType, p.get i = .ok (.constant (.fieldRef owner nameAndType)) ∧
    p.fieldParts owner nameAndType = .ok parts

namespace Scan

variable {p p' : Pool} {r : Index → Index} {code code' : Bytes} {v : Option FieldAccess}

/-- A field instruction makes the same access after its field has got another number. -/
theorem Makes.renumber {i : Instruction} {a : FieldAccess} (h : Makes p code i a) (hi : i ∈ fieldInstructions code)
    (hc : Renumbers r code code')
    (hr : ∀ index, operand code i.offset = .ok index → ∀ parts, p.IsField index parts → p'.IsField (r index) parts) :
    Makes p' code' i a := by
  obtain ⟨index, owner, nameAndType, ho, hg, hp⟩ := h.field
  obtain ⟨owner', nameAndType', hg', hp'⟩ := hr index ho _ ⟨owner, nameAndType, hg, hp⟩
  exact ⟨h.kind, r index, owner', nameAndType', (hc.operands i hi index ho).operand_eq, hg', hp'⟩

/-- A scan that answers at all answers the same of renumbered code in a pool with the same fields. -/
theorem Renumbers.scan_eq (hc : Renumbers r code code') (h : scan p code = .ok v)
    (hr : ∀ i ∈ fieldInstructions code, ∀ index, operand code i.offset = .ok index →
      ∀ parts, p.IsField index parts → p'.IsField (r index) parts) : scan p' code' = .ok v := by
  rw [← h]
  apply scan_congr (ofCode_of_agree hc.length hc.others)
  intro i rest hi
  have hm : i ∈ fieldInstructions code := by rw [hi]; exact List.mem_cons_self
  rcases makes_or_unresolved p hm with ⟨a, ha⟩ | ⟨e, he⟩
  · rw [access?_eq_ok.mpr ha, access?_eq_ok.mpr (ha.renumber hm hc (hr i hm))]
  · -- the scan would have failed at its first field instruction
    rw [scan_of_unresolved hi he] at h
    cases h

end Scan

open Scan

/-- **A scan does not depend on how a pool is numbered.** Let the numbers of the field instructions of some code that lead
to fields in one pool lead to fields with the same texts in another, once they are renumbered. If the code is rewritten
to the new numbers, it has the same instructions, and what a scan answers of it with the other pool is what it answered of
the code before. -/
theorem scan_renumber {p p' : Pool} {code : Bytes} {v : Option FieldAccess} (r : Index → Index)
    (h : scan p code = .ok v)
    (hr : ∀ i ∈ fieldInstructions code, ∀ index, operand code i.offset = .ok index →
      ∀ parts, p.IsField index parts → p'.IsField (r index) parts) :
    Renumbers r code (renumber r code) ∧ Walk.ofCode (renumber r code) = Walk.ofCode code ∧
      scan p' (renumber r code) = .ok v := by
  have hc := renumbers_renumber r code
  exact ⟨hc, ofCode_of_agree hc.length hc.others, hc.scan_eq h hr⟩

/-! ### A number above `0x8000` -/

/-- The constants of a field `x` of a class `O`, for a pool in which the first of them is number `0x80fa`. -/
def highConstants : List Constant :=
  [.utf8 [0x4f], .classRef 0x80fa, .utf8 [0x78], .utf8 [0x49], .nameAndType 0x80fc 0x80fd, .fieldRef 0x80fb 0x80fe]

/-- Such a pool. The field is its number `0x80ff`. -/
def highPool : Pool := .ofConstants (List.replicate 0x80f9 (.integer 0) ++ highConstants)

theorem holds_highPool (before : List Constant) {after : List Constant} {k : Constant}
    (hk : highConstants = before ++ k :: after) {i : Index} (hi : i.toNat = Constant.slotAfter before + 0x80f9) :
    highPool.Holds i k := by
  have hs := Constant.slotAfter_replicate_append 0x80f9 0 before
  rw [← hi] at hs
  have hsplit : List.replicate 0x80f9 (.integer 0) ++ highConstants =
      (List.replicate 0x80f9 (.integer 0) ++ before) ++ k :: after := by rw [hk, List.append_assoc]
  obtain ⟨j, hj, hg⟩ := Pool.get_slotAfter hsplit (hs ▸ i.toNat_lt)
  obtain rfl : j = i := UInt16.toNat_inj.mp (hj.trans hs)
  exact Pool.holds_iff.mpr hg

theorem isField_highPool : highPool.IsField 0x80ff ⟨"O", "x", "I"⟩ := by
  have htext (before : List Constant) {after : List Constant} {bytes : Bytes} {text : String}
      (hk : highConstants = before ++ .utf8 bytes :: after) {i : Index}
      (hi : i.toNat = Constant.slotAfter before + 0x80f9) (hd : ModifiedUtf8.decode bytes = .ok text) :
      highPool.text i = .ok text :=
    Pool.text_eq_ok.mpr ⟨bytes, Pool.utf8At_eq_ok.mpr (holds_highPool before hk hi), hd⟩
  have howner : highPool.className 0x80fb = .ok "O" := Pool.className_eq_ok.mpr ⟨0x80fa,
    Pool.classAt_eq_ok.mpr (holds_highPool (highConstants.take 1) rfl rfl),
    htext [] rfl rfl (Outcome.toOption_eq_some.mp (by decide +kernel))⟩
  have hpair : highPool.nameAndTypeAt 0x80fe = .ok (0x80fc, 0x80fd) :=
    Pool.nameAndTypeAt_eq_ok.mpr (holds_highPool (highConstants.take 4) rfl rfl)
  refine ⟨0x80fb, 0x80fe, (holds_highPool (highConstants.take 5) rfl rfl).found,
    Pool.fieldParts_eq_ok.mpr ⟨howner, 0x80fc, 0x80fd, hpair, ?_, ?_⟩⟩
  · exact htext (highConstants.take 2) rfl rfl (Outcome.toOption_eq_some.mp (by decide +kernel))
  · exact htext (highConstants.take 3) rfl rfl (Outcome.toOption_eq_some.mp (by decide +kernel))

/-- A `getfield` of number 6 reads the same field as one of number `0x80ff` in the pool where it has this number. -/
theorem scan_renumber_highPool :
    scan fieldPool [0x2a, 0xb4, 0x00, 0x06, 0xac] = .ok (some ⟨⟨"O", "x", "I", false⟩, .read⟩) ∧
    highPool.IsField 0x80ff ⟨"O", "x", "I"⟩ ∧
    scan highPool [0x2a, 0xb4, 0x80, 0xff, 0xac] = .ok (some ⟨⟨"O", "x", "I", false⟩, .read⟩) := by
  have h : scan fieldPool [0x2a, 0xb4, 0x00, 0x06, 0xac] = .ok (some ⟨⟨"O", "x", "I", false⟩, .read⟩) :=
    Outcome.toOption_eq_some.mp (by decide +kernel)
  refine ⟨h, isField_highPool, (scan_renumber (fun _ => 0x80ff) h ?_).2.2⟩
  intro i hi index ho parts hp
  obtain rfl : i = ⟨1, 0xb4⟩ := List.mem_singleton.mp hi
  obtain rfl : index = 6 := Except.ok.inj (ho.symm.trans rfl)
  obtain ⟨owner, nameAndType, hg, hparts⟩ := hp
  cases hg
  have hparts' : fieldPool.fieldParts 2 5 = .ok ⟨"O", "x", "I"⟩ := Outcome.toOption_eq_some.mp (by decide +kernel)
  cases hparts'.symm.trans hparts
  exact isField_highPool

end JvmAccessors
