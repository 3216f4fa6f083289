import JvmAccessors.Proofs.Access.Scan
import JvmAccessors.Proofs.Outcome

/-!
# What a scan answers

The answer of a scan is told by the whole walk through the code: by the field instructions that the walk comes to
(`Scan.fieldInstructions`), by what the operand of the first one leads to, and by what stops the walk, if something does.
`Scan.Answers` says how, rule by rule, without reference to how a scan goes along. The walk comes to no field instruction
without its operand (`Scan.exists_operand`), so an operand may lead to no field (`Scan.Unresolved`), but it is never
missing. Main statement: a scan answers what the rules say, and nothing else (`scan_iff_answers`).
-/

namespace JvmAccessors

/-! ## Operands -/

namespace Instruction

/-- The operand of an opcode is the unsigned big-endian number in the two bytes after it. -/
theorem operand_eq_ok_iff {code : Bytes} {offset : Nat} {index : UInt16} : operand code offset = .ok index ↔
    ∃ high low, code[offset + 1]? = some high ∧ code[offset + 2]? = some low ∧
      index.toNat = high.toNat * 256 + low.toNat := by
  have hword (high low : UInt8) :
      (UInt16.ofNat (Bytes.toNat [high, low])).toNat = high.toNat * 256 + low.toNat := by
    have hlt : high.toNat * 256 + low.toNat < 2 ^ 16 := by
      have hh := high.toNat_lt
      have hl := low.toNat_lt
      omega
    have hb : Bytes.toNat [high, low] = high.toNat * 256 + low.toNat := by simp [Bytes.toNat]
    rw [hb]
    exact UInt16.toNat_ofNat_of_lt' hlt
  unfold operand
  cases code[offset + 1]? with
  | none => simp
  | some high =>
    cases code[offset + 2]? with
    | none => simp
    | some low =>
      simp only [Except.ok.injEq, Option.some.injEq, ← UInt16.toNat_inj, hword]
      constructor
      · intro h
        exact ⟨high, low, rfl, rfl, h.symm⟩
      · rintro ⟨_, _, rfl, rfl, h⟩
        exact h.symm

/-- An instruction of at least three bytes has an operand. -/
theorem exists_operand_of_chunk {code before chunk after : Bytes} (hc : code = before ++ chunk ++ after)
    (hl : 3 ≤ chunk.length) : ∃ index, operand code before.length = .ok index := by
  match chunk, hl with
  | opcode :: high :: low :: operands, _ =>
    have hh : code[before.length + 1]? = some high := by simp [hc]
    have hlow : code[before.length + 2]? = some low := by simp [hc]
    refine ⟨UInt16.ofNat (Bytes.toNat [high, low]), ?_⟩
    simp only [operand, hh, hlow]

end Instruction

namespace Scan

variable {p : Pool} {code : Bytes}

/-! ## Field instructions -/

/-- The field instructions that a walk through the code comes to, before the end or before what stops it. -/
def fieldInstructions (code : Bytes) : List Instruction :=
  (Walk.ofCode code).instructions.filter fun i => i.opcode ∈ fieldOpcodes

theorem operandBytes?_of_mem {opcode : UInt8} (h : opcode ∈ fieldOpcodes) :
    Instruction.operandBytes? opcode = some 2 := by
  simp only [fieldOpcodes, List.mem_cons, List.not_mem_nil, or_false] at h
  rcases h with rfl | rfl | rfl | rfl <;> rfl

/-- The operand of a field instruction is there. -/
theorem exists_operand {i : Instruction} (hi : i ∈ fieldInstructions code) :
    ∃ index, Instruction.operand code i.offset = .ok index := by
  obtain ⟨hw, ho⟩ := List.mem_filter.mp hi
  have ho : i.opcode ∈ fieldOpcodes := of_decide_eq_true ho
  obtain ⟨rest, hs, -⟩ := Walk.spells_resume 0 code
  obtain ⟨before, chunk, after, hc, hb, he, -⟩ := hs.chunk_of_mem hw
  have hl : 3 ≤ chunk.length := by
    generalize i.opcode = opcode at ho he
    cases he with
    | plain h =>
      rw [operandBytes?_of_mem ho] at h
      have h := Option.some.inj h
      simp only [List.length_cons]
      omega
    | wideIncrement => exact absurd ho (by decide)
    | wideVariable => exact absurd ho (by decide)
    | tableSwitch => exact absurd ho (by decide)
    | lookupSwitch => exact absurd ho (by decide)
  rw [← hb, Nat.zero_add]
  exact Instruction.exists_operand_of_chunk hc hl

/-- The operand of an instruction leads to no field with texts, for a reason: nothing is there, it is no field, or a
text of the field cannot be had. -/
inductive Unresolved (p : Pool) (code : Bytes) (i : Instruction) : ScanError → Prop
  | lookup {index : Index} {e : LookupError} : Instruction.operand code i.offset = .ok index →
      p.get index = .error e → Unresolved p code i (.lookup e)
  | notField {index : Index} {found : Slot} : Instruction.operand code i.offset = .ok index →
      p.get index = .ok found → (∀ owner nameAndType, found ≠ .constant (.fieldRef owner nameAndType)) →
      Unresolved p code i (.notField i.offset found index)
  | text {index owner nameAndType : Index} {e : TextError} : Instruction.operand code i.offset = .ok index →
      p.get index = .ok (.constant (.fieldRef owner nameAndType)) → p.fieldParts owner nameAndType = .error e →
      Unresolved p code i (.text e)

theorem opcode_mem_of_mem {i : Instruction} (hi : i ∈ fieldInstructions code) : i.opcode ∈ fieldOpcodes :=
  of_decide_eq_true (List.mem_filter.mp hi).2

theorem exists_kind {i : Instruction} (hi : i ∈ fieldInstructions code) :
    ∃ isStatic direction, fieldOpcode? i.opcode = some (isStatic, direction) := by
  have hs : (fieldOpcode? i.opcode).isSome = true := by
    rw [isSome_fieldOpcode?]
    exact decide_eq_true (opcode_mem_of_mem hi)
  obtain ⟨⟨isStatic, direction⟩, hk⟩ := Option.isSome_iff_exists.mp hs
  exact ⟨isStatic, direction, hk⟩

/-- What keeps a field instruction from making an access is that its operand leads to no field. -/
theorem access?_eq_error {i : Instruction} (hi : i ∈ fieldInstructions code) {e : ScanError} :
    access? p code i = some (.error e) ↔ Unresolved p code i e := by
  obtain ⟨index, hindex⟩ := exists_operand hi
  obtain ⟨isStatic, direction, hk⟩ := exists_kind hi
  simp only [access?, hk, Option.map_some, Option.some.injEq, resolve, hindex]
  constructor
  · intro h
    split at h
    · rename_i hg
      cases h
      exact .lookup hindex hg
    · rename_i hg
      split at h
      · rename_i hp
        cases h
        exact .text hindex hg hp
      · cases h
    · rename_i found hne hg
      cases h
      exact .notField hindex hg fun owner nameAndType he => hne owner nameAndType he
  · rintro (⟨hi', hg⟩ | ⟨hi', hg, hne⟩ | ⟨hi', hg, hp⟩) <;> cases hindex.symm.trans hi'
    · rw [hg]
    · rw [hg]
      split
      · rename_i he
        cases he
      · rename_i he
        cases he
        exact absurd rfl (hne _ _)
      · rename_i he
        cases he
        rfl
    · simp only [hg, hp]

/-! ## What the field instructions tell of the accesses -/

theorem accesses_eq (p : Pool) (code : Bytes) :
    accesses p code (Walk.ofCode code) = (fieldInstructions code).filterMap (access? p code) := by
  simp only [accesses, fieldInstructions, ← isSome_access? p code, List.filterMap_filter]
  congr 1
  funext i
  cases access? p code i <;> rfl

theorem exists_access? (p : Pool) {i : Instruction} (hi : i ∈ fieldInstructions code) :
    ∃ r, access? p code i = some r := by
  obtain ⟨isStatic, direction, hk⟩ := exists_kind hi
  exact ⟨resolve p code i.offset isStatic direction, by rw [access?, hk]; rfl⟩

/-- A field instruction makes an access, or its operand leads to no field. -/
theorem makes_or_unresolved (p : Pool) {i : Instruction} (hi : i ∈ fieldInstructions code) :
    (∃ a, Makes p code i a) ∨ ∃ e, Unresolved p code i e := by
  obtain ⟨r, hr⟩ := exists_access? p hi
  cases r with
  | error e => exact .inr ⟨e, (access?_eq_error hi).mp hr⟩
  | ok a => exact .inl ⟨a, access?_eq_ok.mp hr⟩

/-- **The rules of a scan**, given the field instructions of the code and what stops the walk. -/
inductive Answers (p : Pool) (code : Bytes) : Except ScanError (Option FieldAccess) → Prop
  /-- If the operand of the first field instruction leads to no field, nothing that follows matters. -/
  | unresolved {i : Instruction} {rest : List Instruction} {e : ScanError} : fieldInstructions code = i :: rest →
      Unresolved p code i e → Answers p code (.error e)
  /-- Otherwise what stops the walk is the answer. -/
  | undecodable {f : WalkFault} : (∀ i rest, fieldInstructions code = i :: rest → ∃ a, Makes p code i a) →
      (Walk.ofCode code).fault? = some f → Answers p code (.error (.undecodable f))
  /-- Otherwise the one access is, if there is one. -/
  | single {i : Instruction} {a : FieldAccess} : fieldInstructions code = [i] → Makes p code i a →
      (Walk.ofCode code).fault? = none → Answers p code (.ok (some a))
  | none : fieldInstructions code = [] → (Walk.ofCode code).fault? = none → Answers p code (.ok none)
  | several {i j : Instruction} {rest : List Instruction} {a : FieldAccess} : fieldInstructions code = i :: j :: rest →
      Makes p code i a → (Walk.ofCode code).fault? = none → Answers p code (.ok none)

end Scan

open Scan

section Rules

variable {p : Pool} {code : Bytes} {i : Instruction} {rest : List Instruction}

/-! ## A scan follows the rules -/

theorem scan_of_nil (h : fieldInstructions code = []) : scan p code = unlessFault (Walk.ofCode code) none := by
  rw [scan_eq, accesses_eq, h]
  rfl

theorem scan_of_unresolved {e : ScanError} (h : fieldInstructions code = i :: rest) (he : Unresolved p code i e) :
    scan p code = .error e := by
  have ha := (access?_eq_error (h ▸ List.mem_cons_self)).mpr he
  rw [scan_eq, accesses_eq, h, List.filterMap_cons, ha]

/-- After a first access the others are only counted. -/
theorem scan_of_makes {a : FieldAccess} (h : fieldInstructions code = i :: rest) (ha : Makes p code i a) :
    scan p code = unlessFault (Walk.ofCode code) (if rest.isEmpty then some a else none) := by
  have hrest : (rest.filterMap (access? p code)).isEmpty = rest.isEmpty := by
    cases rest with
    | nil => rfl
    | cons j others =>
      have hj : j ∈ fieldInstructions code := by simp [h]
      obtain ⟨r, hr⟩ := exists_access? p hj
      simp [hr]
  rw [scan_eq, accesses_eq, h, List.filterMap_cons, access?_eq_ok.mpr ha]
  simp only [hrest]

/-- What a scan answers is an answer by the rules. -/
theorem answers_scan (p : Pool) (code : Bytes) : Answers p code (scan p code) := by
  cases hi : fieldInstructions code with
  | nil =>
    rw [scan_of_nil hi]
    cases hf : (Walk.ofCode code).fault? with
    | none =>
      rw [unlessFault_of_none hf]
      exact .none hi hf
    | some f =>
      rw [unlessFault_of_some hf]
      exact .undecodable (fun i rest h => by rw [hi] at h; cases h) hf
  | cons i rest =>
    rcases makes_or_unresolved p (hi ▸ List.mem_cons_self) with ⟨a, ha⟩ | ⟨e, he⟩
    · rw [scan_of_makes hi ha]
      cases hf : (Walk.ofCode code).fault? with
      | none =>
        rw [unlessFault_of_none hf]
        cases rest with
        | nil => exact .single hi ha hf
        | cons j rest => exact .several hi ha hf
      | some f =>
        rw [unlessFault_of_some hf]
        refine .undecodable (fun j others h => ?_) hf
        rw [hi] at h
        cases h
        exact ⟨a, ha⟩
    · rw [scan_of_unresolved hi he]
      exact .unresolved hi he

/-- A scan finds no access where there is not exactly one field instruction. -/
theorem length_fieldInstructions_of_scan (h : scan p code = .ok none) : (fieldInstructions code).length ≠ 1 := by
  have ha := answers_scan p code
  rw [h] at ha
  cases ha with
  | none hi _ => simp [hi]
  | several hi _ _ => simp [hi]

/-- Codes with the same instructions have the same answer if the first field instruction leads to the same. -/
theorem scan_congr {p' : Pool} {code' : Bytes} (hw : Walk.ofCode code' = Walk.ofCode code)
    (hfirst : ∀ i rest, fieldInstructions code = i :: rest → access? p' code' i = access? p code i) :
    scan p' code' = scan p code := by
  have hi' : fieldInstructions code' = fieldInstructions code := by rw [fieldInstructions, hw, fieldInstructions]
  cases hi : fieldInstructions code with
  | nil =>
    rw [hi] at hi'
    rw [scan_of_nil hi, scan_of_nil hi', hw]
  | cons i rest =>
    rw [hi] at hi'
    have ha := hfirst i rest hi
    rcases makes_or_unresolved p (hi ▸ List.mem_cons_self) with ⟨a, hm⟩ | ⟨e, he⟩
    · have hm' : Makes p' code' i a := access?_eq_ok.mp (ha.trans (access?_eq_ok.mpr hm))
      rw [scan_of_makes hi hm, scan_of_makes hi' hm', hw]
    · have hu := (access?_eq_error (hi ▸ List.mem_cons_self)).mpr he
      have he' : Unresolved p' code' i e := (access?_eq_error (hi' ▸ List.mem_cons_self)).mp (ha.trans hu)
      rw [scan_of_unresolved hi he, scan_of_unresolved hi' he']

end Rules

/-- A pool whose slot 6 is a field `x` of a class `O`; it ends there. -/
def fieldPool : Pool :=
  .ofConstants [.utf8 [0x4f], .classRef 1, .utf8 [0x78], .utf8 [0x49], .nameAndType 3 4, .fieldRef 2 5]

end JvmAccessors
