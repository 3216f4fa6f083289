import JvmAccessors.Proofs.Access.Answers
import JvmAccessors.Proofs.Bytecode.Cursor

/-!
# How far a walk comes

Whatever bytes some code is, a walk through it goes forward, instruction by instruction, to the end or to one fault
(`decode_advances`). What it comes to stands in the code with all of its bytes, so that an instruction of three bytes or
more has an operand (`Instruction.Stands.exists_operand`), and a scan never misses one (`scan_ne_missingOperand`).
-/

namespace JvmAccessors

open Instruction

theorem Instruction.Stands.exists_operand {code : Bytes} {i : Instruction} {length : Nat} (h : i.Stands code length)
    (hl : 3 ≤ length) : ∃ index, operand code i.offset = .ok index := by
  have hwithin := h.within
  have hc : code = code.take i.offset ++ (code.drop i.offset).take length ++ (code.drop i.offset).drop length := by
    rw [List.append_assoc, List.take_append_drop, List.take_append_drop]
  obtain ⟨index, ho⟩ := exists_operand_of_chunk hc (by rw [List.length_take, List.length_drop]; omega)
  rw [List.length_take, Nat.min_eq_left (by omega)] at ho
  exact ⟨index, ho⟩

/-- No rule of a scan answers that an operand is missing. -/
theorem scan_ne_missingOperand (p : Pool) (code : Bytes) (cause : MissingOperand) :
    scan p code ≠ .error (.operand cause) := by
  intro h
  have ha := answers_scan p code
  rw [h] at ha
  cases ha with
  | unresolved _ hu => cases hu

/-- **A walk goes forward to the end or to one fault**, whatever the code is. Its instructions stand back to back in the
code from offset 0, each with its opcode, and so at increasing offsets; the last one ends where the code ends, or where
the fault is, which is the last item then. A cursor on the code answers these items, of which there are no more than
bytes, and nothing ever after. An instruction of three bytes or more has an operand, so that a scan never misses one. -/
theorem decode_advances (code : Bytes) :
    (∃ stop, BackToBack code 0 (Walk.ofCode code).instructions stop ∧
      ((Walk.ofCode code).items = (Walk.ofCode code).instructions.map .ok ∧ stop = code.length ∨
        ∃ cause, (Walk.ofCode code).items = (Walk.ofCode code).instructions.map .ok ++ [.error ⟨stop, cause⟩] ∧
          stop < code.length)) ∧
    (Walk.ofCode code).instructions.Pairwise (·.offset < ·.offset) ∧
    (∀ n, CodeCursor.answer code .start n = (Walk.ofCode code).items[n]?) ∧
    (Walk.ofCode code).items.length ≤ code.length ∧
    (∀ i ∈ (Walk.ofCode code).instructions, ∀ length, i.Stands code length → 3 ≤ length →
      ∃ index, operand code i.offset = .ok index) ∧
    ∀ p cause, scan p code ≠ .error (.operand cause) := by
  obtain ⟨stop, hb, hstop⟩ : ∃ stop, BackToBack code 0 (Walk.ofCode code).instructions stop ∧
      ((Walk.ofCode code).fault? = none ∧ stop = code.length ∨
        ∃ cause, (Walk.ofCode code).fault? = some ⟨stop, cause⟩ ∧ stop < code.length) :=
    Walk.exists_backToBack code 0 (Nat.zero_le _)
  have hitems : (Walk.ofCode code).items = (Walk.ofCode code).instructions.map .ok ∧ stop = code.length ∨
      ∃ cause, (Walk.ofCode code).items = (Walk.ofCode code).instructions.map .ok ++ [.error ⟨stop, cause⟩] ∧
        stop < code.length := by
    rw [Walk.items_eq]
    rcases hstop with ⟨hf, hstop⟩ | ⟨cause, hf, hstop⟩
    · rw [hf]
      exact .inl ⟨List.append_nil _, hstop⟩
    · rw [hf]
      exact .inr ⟨cause, rfl, hstop⟩
  have hcount : (Walk.ofCode code).items.length ≤ code.length := by
    have hle := hb.length_le
    rcases hitems with ⟨hi, hstop⟩ | ⟨cause, hi, hstop⟩
    · rw [hi, List.length_map]
      omega
    · rw [hi, List.length_append, List.length_map, List.length_singleton]
      omega
  exact ⟨⟨stop, hb, hitems⟩, hb.pairwise.2, CodeCursor.answer_eq code, hcount,
    fun i _ length hs => hs.exists_operand, fun p => scan_ne_missingOperand p code⟩

/-- A load, a `getfield` and a `lookupswitch` whose pairs are cut off. -/
def cutSwitchCode : Bytes := [0x2a, 0xb4, 0x00, 0x07, 0xab, 0, 0, 0] ++ [0, 0, 0, 0] ++ [0, 0, 0, 1] ++ [0, 0, 0, 5]

/-- The `getfield` stands at offset 1 with three bytes and has its operand, and the fourth request finds nothing. -/
theorem decode_cutSwitchCode :
    (⟨1, 0xb4⟩ : Instruction) ∈ (Walk.ofCode cutSwitchCode).instructions ∧ Stands cutSwitchCode ⟨1, 0xb4⟩ 3 ∧
    (∃ index, operand cutSwitchCode 1 = .ok index) ∧
    CodeCursor.answer cutSwitchCode .start 2 = some (.error ⟨4, .truncated 0xab⟩) ∧
    CodeCursor.answer cutSwitchCode .start 3 = none := by
  have hm : (⟨1, 0xb4⟩ : Instruction) ∈ (Walk.ofCode cutSwitchCode).instructions := by decide
  have hs : Stands cutSwitchCode ⟨1, 0xb4⟩ 3 := ⟨rfl, by decide, .plain rfl⟩
  obtain ⟨-, -, hanswer, -, hoperand, -⟩ := decode_advances cutSwitchCode
  refine ⟨hm, hs, hoperand _ hm 3 hs (Nat.le_refl 3), ?_, ?_⟩
  · rw [hanswer]
    rfl
  · rw [hanswer]
    rfl

end JvmAccessors
