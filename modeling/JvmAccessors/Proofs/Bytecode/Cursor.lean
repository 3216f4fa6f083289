import JvmAccessors.Proofs.Bytecode.Grammar

/-!
# Going through code step by step

A walk yields its instructions one by one, and its fault after them, if there is one (`Walk.items`). `CodeCursor.next`
yields them on demand: a cursor knows where the next instruction starts and whether it has failed, and it looks at the
code from there only. Its answers are the items of the walk, and nothing ever after (`CodeCursor.answer_eq`).

The instructions of a walk stand back to back in the code, from its start to its end or to the fault
(`Walk.exists_backToBack`).
-/

namespace JvmAccessors

/-! ## Items -/

namespace Walk

/-- What a walk yields: its instructions, and then its fault, if there is one. -/
def items : Walk → List (Except WalkFault Instruction)
  | .done => []
  | .fault f => [.error f]
  | .step i rest => .ok i :: rest.items

theorem items_eq : ∀ w : Walk, w.items = w.instructions.map .ok ++ w.fault?.toList.map .error
  | .done => rfl
  | .fault _ => rfl
  | .step i rest => by rw [items, instructions, fault?, items_eq rest, List.map_cons, List.cons_append]

theorem items_foldr (w : Walk) : ∀ is : List Instruction, (is.foldr step w).items = is.map .ok ++ w.items
  | [] => rfl
  | i :: is => by rw [List.foldr_cons, items, items_foldr w is, List.map_cons, List.cons_append]

/-- **A walk, told by offsets**: where the rest of the code starts with an opcode and its instruction ends in the code, the
walk goes on from that end. -/
theorem resume_drop (code : Bytes) (offset : Nat) : resume offset 0 (code.drop offset) = match code.drop offset with
    | [] => .done
    | opcode :: after => match Instruction.length offset opcode after with
      | .error e => .fault ⟨offset, e⟩
      | .ok n =>
        if code.length < offset + n then .fault ⟨offset, .truncated opcode⟩
        else .step ⟨offset, opcode⟩ (resume (offset + n) 0 (code.drop (offset + n))) := by
  cases hd : code.drop offset with
  | nil => rfl
  | cons opcode after =>
    have hlen := congrArg List.length hd
    rw [List.length_drop, List.length_cons] at hlen
    rw [resume]
    cases hl : Instruction.length offset opcode after with
    | error e => simp only [hl]
    | ok n =>
      have hn := Instruction.length_pos hl
      simp only [hl]
      cases hs : Bytes.split? (n - 1) after with
      | none =>
        have hlt : after.length < n - 1 := by
          rw [Bytes.split?_eq] at hs
          split at hs
          · cases hs
          · omega
        rw [if_pos (by omega)]
      | some parts =>
        obtain ⟨operands, rest⟩ := parts
        obtain ⟨ho, rfl⟩ := Bytes.eq_append_of_split? hs
        rw [List.length_append] at hlen
        have hafter : code.drop (offset + n) = rest := by
          have hsplit : code.drop offset = (opcode :: operands) ++ rest := hd
          rw [← List.drop_drop, hsplit]
          exact List.drop_left' (by rw [List.length_cons, ho]; omega)
        have hstop : offset + 1 + (n - 1) = offset + n := by omega
        rw [if_neg (by omega), hafter, ← ho, resume_append, ho, hstop]

end Walk

/-! ## The cursor -/

/-- Where the next instruction starts, and whether one has failed. -/
structure CodeCursor where
  offset : Nat
  failed : Bool

namespace CodeCursor

/-- Before the first instruction. -/
def start : CodeCursor := ⟨0, false⟩

/-- The next item, if there is one, and the cursor after it. -/
def next (code : Bytes) (c : CodeCursor) : Option (Except WalkFault Instruction) × CodeCursor :=
  if c.failed then (none, c)
  else match code.drop c.offset with
    | [] => (none, c)
    | opcode :: after =>
      match Instruction.length c.offset opcode after with
      | .error e => (some (.error ⟨c.offset, e⟩), ⟨c.offset, true⟩)
      | .ok length =>
        if code.length < c.offset + length then (some (.error ⟨c.offset, .truncated opcode⟩), ⟨c.offset, true⟩)
        else (some (.ok ⟨c.offset, opcode⟩), ⟨c.offset + length, false⟩)

/-- The answer to the request after the given number of others. -/
def answer (code : Bytes) : CodeCursor → Nat → Option (Except WalkFault Instruction)
  | c, 0 => (c.next code).1
  | c, n + 1 => answer code (c.next code).2 n

/-- What a walk from a cursor on yields. -/
def ahead (code : Bytes) (c : CodeCursor) : List (Except WalkFault Instruction) :=
  if c.failed then [] else (Walk.resume c.offset 0 (code.drop c.offset)).items

/-- One request takes the first of the items ahead. -/
theorem next_spec (code : Bytes) (c : CodeCursor) :
    (c.next code).1 = (c.ahead code).head? ∧ (c.next code).2.ahead code = (c.ahead code).tail := by
  obtain ⟨offset, failed⟩ := c
  cases failed with
  | true => exact ⟨rfl, rfl⟩
  | false =>
    simp only [next, ahead, Bool.false_eq_true, if_false, Walk.resume_drop code offset]
    cases hd : code.drop offset with
    | nil => simp [Walk.items, hd, Walk.resume]
    | cons opcode after =>
      cases hl : Instruction.length offset opcode after with
      | error e => simp [Walk.items, hl]
      | ok n => by_cases hlt : code.length < offset + n <;> simp [Walk.items, hl, hlt]

/-- **A cursor answers the items ahead in order, and then nothing any more.** -/
theorem answer_ahead (code : Bytes) : ∀ (n : Nat) (c : CodeCursor), answer code c n = (c.ahead code)[n]?
  | 0, c => by rw [answer, (next_spec code c).1, List.head?_eq_getElem?]
  | n + 1, c => by rw [answer, answer_ahead code n, (next_spec code c).2, List.getElem?_tail]

theorem answer_eq (code : Bytes) (n : Nat) : answer code start n = (Walk.ofCode code).items[n]? :=
  answer_ahead code n start

end CodeCursor

/-! ## Back to back -/

namespace Instruction

/-- An instruction stands in the code and takes the given number of bytes, all of which are there. -/
structure Stands (code : Bytes) (i : Instruction) (length : Nat) : Prop where
  opcode : code[i.offset]? = some i.opcode
  within : i.offset + length ≤ code.length
  encodes : Encodes i.offset i.opcode ((code.drop i.offset).take length)

/-- **Instructions back to back** from one offset to another: each stands in the code, and starts where the one before it
ends. -/
inductive BackToBack (code : Bytes) : (start : Nat) → List Instruction → (stop : Nat) → Prop
  | nil (start : Nat) : BackToBack code start [] start
  | cons {i : Instruction} {length stop : Nat} {is : List Instruction} : i.Stands code length →
      BackToBack code (i.offset + length) is stop → BackToBack code i.offset (i :: is) stop

variable {code : Bytes} {i : Instruction} {length : Nat}

theorem Encodes.length_pos {offset : Nat} {opcode : UInt8} {chunk : Bytes} (h : Encodes offset opcode chunk) :
    0 < chunk.length := by
  cases h <;> exact Nat.succ_pos _

theorem Stands.length_pos (h : i.Stands code length) : 0 < length := by
  have hp := h.encodes.length_pos
  rw [List.length_take] at hp
  omega

/-- An instruction in front of the rest of the code stands there. -/
theorem stands_of_drop {offset : Nat} {opcode : UInt8} {operands rest : Bytes}
    (hd : code.drop offset = (opcode :: operands) ++ rest) (he : Encodes offset opcode (opcode :: operands)) :
    Stands code ⟨offset, opcode⟩ (operands.length + 1) where
  opcode := by
    have h0 : (code.drop offset)[0]? = some opcode := by rw [hd]; rfl
    rwa [List.getElem?_drop, Nat.add_zero] at h0
  within := by
    have hlen := congrArg List.length hd
    rw [List.length_drop, List.length_append, List.length_cons] at hlen
    show offset + (operands.length + 1) ≤ code.length
    omega
  encodes := by
    rw [hd, List.take_left' (List.length_cons)]
    exact he

/-- Instructions back to back take a byte each at least. -/
theorem BackToBack.length_le {start stop : Nat} {is : List Instruction} (h : BackToBack code start is stop) :
    start + is.length ≤ stop := by
  induction h with
  | nil start => exact Nat.le_refl _
  | cons hi _ ih =>
    have hp := hi.length_pos
    rw [List.length_cons]
    omega

/-- Instructions back to back stand at increasing offsets, from the first one on. -/
theorem BackToBack.pairwise {start stop : Nat} {is : List Instruction} (h : BackToBack code start is stop) :
    (∀ i ∈ is, start ≤ i.offset) ∧ is.Pairwise (·.offset < ·.offset) := by
  induction h with
  | nil start => exact ⟨nofun, .nil⟩
  | @cons i length stop is hi _ ih =>
    have hp := hi.length_pos
    have hlt (j : Instruction) (hj : j ∈ is) : i.offset < j.offset := by
      have hle := ih.1 j hj
      omega
    refine ⟨fun j hj => ?_, List.pairwise_cons.mpr ⟨hlt, ih.2⟩⟩
    rcases List.mem_cons.mp hj with rfl | hj
    · exact Nat.le_refl _
    · exact Nat.le_of_lt (hlt j hj)

end Instruction

open Instruction in
/-- **The instructions of a walk stand back to back** from where it starts, up to the end of the code or to the fault,
which comes before the end. -/
theorem Walk.exists_backToBack (code : Bytes) (offset : Nat) (h : offset ≤ code.length) : ∃ stop,
    BackToBack code offset (resume offset 0 (code.drop offset)).instructions stop ∧
      ((resume offset 0 (code.drop offset)).fault? = none ∧ stop = code.length ∨
        ∃ cause, (resume offset 0 (code.drop offset)).fault? = some ⟨stop, cause⟩ ∧ stop < code.length) := by
  have hlen := code.length_drop (i := offset)
  match hd : code.drop offset with
  | [] =>
    rw [hd, List.length_nil] at hlen
    exact ⟨offset, .nil offset, .inl ⟨rfl, by omega⟩⟩
  | opcode :: after =>
    rw [hd, List.length_cons] at hlen
    rcases resume_cases offset opcode after with ⟨operands, rest, rfl, he⟩ | ⟨cause, hf⟩
    · have hs := stands_of_drop hd he
      have hwithin : offset + (operands.length + 1) ≤ code.length := hs.within
      obtain ⟨stop, hb, hstop⟩ := exists_backToBack code (offset + (operands.length + 1)) hwithin
      have hrest : code.drop (offset + (operands.length + 1)) = rest := by
        rw [← List.drop_drop, hd, ← List.cons_append]
        exact List.drop_left' List.length_cons
      have hstep := resume_of_encodes he rest
      rw [List.cons_append, List.length_cons, ← hrest] at hstep
      rw [← hrest, hstep]
      exact ⟨stop, .cons hs hb, hstop⟩
    · rw [hf]
      exact ⟨offset, .nil offset, .inr ⟨cause, rfl, by omega⟩⟩
termination_by code.length - offset
decreasing_by omega

end JvmAccessors
