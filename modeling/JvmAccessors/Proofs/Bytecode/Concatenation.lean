import JvmAccessors.Proofs.Bytecode.Cursor

/-!
# Code after other code

What a walk comes to before a fault does not depend on the bytes after it, so that the instructions of some code are the
first ones of any code that starts with it. If there is no fault, the walk goes on through what follows as if that stood
alone, with every offset moved (`Walk.moved`): the length of an instruction depends on its offset only for a switch, and
for that only modulo four (`Instruction.length_add`, `Walk.resume_add`). Main statement: `decode_append`.
-/

namespace JvmAccessors

/-! ## Moved walks -/

/-- The cause of a fault that far further on. Of all causes only the end of the code before the operands of a switch names
an offset. -/
def DecodeError.moved (distance : Nat) : DecodeError → DecodeError
  | .operandsPastEnd offset => .operandsPastEnd (offset + distance)
  | e => e

/-- The same fault that far further on. -/
def WalkFault.moved (distance : Nat) (f : WalkFault) : WalkFault := ⟨f.offset + distance, f.cause.moved distance⟩

/-- The same instruction that far further on. -/
def Instruction.moved (distance : Nat) (i : Instruction) : Instruction := ⟨i.offset + distance, i.opcode⟩

namespace Walk

/-- The same walk that far further on. -/
def moved (distance : Nat) : Walk → Walk
  | .done => .done
  | .fault f => .fault (f.moved distance)
  | .step i rest => .step (i.moved distance) (rest.moved distance)

/-- The same item of a walk that far further on. -/
def movedItem (distance : Nat) : Except WalkFault Instruction → Except WalkFault Instruction
  | .error f => .error (f.moved distance)
  | .ok i => .ok (i.moved distance)

theorem items_moved (distance : Nat) : ∀ w : Walk, (w.moved distance).items = w.items.map (movedItem distance)
  | .done => rfl
  | .fault _ => rfl
  | .step i rest => by rw [moved, items, items_moved distance rest, items, List.map_cons, movedItem]

/-- Where a walk looks for an instruction: at each one that it finds, and at its fault. -/
def offsets : Walk → List Nat
  | .done => []
  | .fault f => [f.offset]
  | .step i rest => i.offset :: rest.offsets

/-- **A walk through the code meets an opcode**: it looks for an instruction where that byte stands. -/
def Meets (code : Bytes) (opcode : UInt8) : Prop := ∃ offset ∈ (ofCode code).offsets, code[offset]? = some opcode

end Walk

/-! ## Lengths further on -/

namespace Instruction

/-- tableswitch and lookupswitch. -/
def switches : List UInt8 := [0xaa, 0xab]

theorem mem_switches_of_form {opcode : UInt8} (h : form opcode = .tableSwitch ∨ form opcode = .lookupSwitch) :
    opcode ∈ switches :=
  forall_byte (P := fun opcode => form opcode = .tableSwitch ∨ form opcode = .lookupSwitch → opcode ∈ switches)
    (by decide +kernel) opcode h

theorem padding_add {offset distance : Nat} (h : distance % 4 = 0) : padding (offset + distance) = padding offset := by
  rw [padding, padding]
  omega

/-- **The length of an instruction further on** is the same, if it is no switch or the distance is a multiple of four. -/
theorem length_add {distance : Nat} {opcode : UInt8} (h : distance % 4 = 0 ∨ opcode ∉ switches) (offset : Nat)
    (after : Bytes) :
    length (offset + distance) opcode after = (length offset opcode after).mapError (DecodeError.moved distance) := by
  have hpast (n : Nat) : offset + distance + 1 + n = offset + 1 + n + distance := by omega
  have hswitch (hf : form opcode = .tableSwitch ∨ form opcode = .lookupSwitch) : distance % 4 = 0 :=
    h.resolve_right fun hn => hn (mem_switches_of_form hf)
  unfold length
  cases hf : form opcode with
  | fixed n => rfl
  | unknown => rfl
  | wide =>
    cases after with
    | nil => rfl
    | cons modified rest => cases hw : wideLength? modified <;> simp only [hw] <;> rfl
  | tableSwitch =>
    simp only [padding_add (hswitch (.inl hf)), hpast]
    cases after.split? (padding offset) with
    | none => rfl
    | some parts =>
      cases he : tableEntries parts.2 with
      | error e => simp only [he]; rfl
      | ok entries =>
        simp only [he]
        split <;> rfl
  | lookupSwitch =>
    simp only [padding_add (hswitch (.inr hf)), hpast]
    cases after.split? (padding offset) with
    | none => rfl
    | some parts =>
      cases he : lookupPairs parts.2 with
      | error e => simp only [he]; rfl
      | ok entries =>
        simp only [he]
        split <;> rfl

end Instruction

/-! ## Walks further on -/

namespace Walk

open Instruction

/-- Before more bytes a walk looks for an instruction where it is. -/
theorem mem_offsets_resume (offset : Nat) (opcode : UInt8) (after : Bytes) :
    offset ∈ (resume offset 0 (opcode :: after)).offsets := by
  rcases resume_cases offset opcode after with ⟨operands, rest, rfl, he⟩ | ⟨cause, hf⟩
  · rw [← List.cons_append, resume_of_encodes he]
    exact List.mem_cons_self
  · rw [hf]
    exact List.mem_singleton_self offset

/-- **The walk through bytes further on** is the moved walk, if each opcode that it meets has its length there too. -/
theorem resume_add {code : Bytes} {distance : Nat} : ∀ (rest : Bytes) (skipped offset : Nat), code.drop offset = rest →
    (∀ o ∈ (resume offset skipped rest).offsets, ∀ opcode, code[o]? = some opcode →
      distance % 4 = 0 ∨ opcode ∉ switches) →
    resume (offset + distance) skipped rest = (resume offset skipped rest).moved distance
  | [], _, _, _, _ => rfl
  | _ :: rest, skipped + 1, offset, hd, hm => by
    have hd' : code.drop (offset + 1) = rest := by rw [← List.drop_drop, hd]; rfl
    rw [resume, resume, Nat.add_right_comm]
    exact resume_add rest skipped (offset + 1) hd' hm
  | opcode :: rest, 0, offset, hd, hm => by
    have hd' : code.drop (offset + 1) = rest := by rw [← List.drop_drop, hd]; rfl
    have hat : code[offset]? = some opcode := by
      rw [← Nat.add_zero offset, ← List.getElem?_drop, hd]
      rfl
    have hlength := length_add (hm offset (mem_offsets_resume offset opcode rest) opcode hat) offset rest
    rw [resume] at hm ⊢
    rw [resume]
    cases hl : length offset opcode rest with
    | error e =>
      rw [hl] at hlength
      have hlength : length (offset + distance) opcode rest = .error (e.moved distance) := hlength
      rw [hlength]
      rfl
    | ok n =>
      rw [hl] at hlength
      have hlength : length (offset + distance) opcode rest = .ok n := hlength
      simp only [hl] at hm
      cases hs : Bytes.split? (n - 1) rest with
      | none =>
        simp only [hlength, hs]
        rfl
      | some parts =>
        simp only [hs] at hm
        simp only [hlength, hs, moved]
        rw [Nat.add_right_comm, resume_add rest (n - 1) (offset + 1) hd' fun o ho => hm o (List.mem_cons_of_mem _ ho)]
        rfl

/-- The walk through code that is spelled in front by some instructions notes these, and goes on with what is left of the
code and what follows it. -/
theorem resume_append_of_spells {offset : Nat} {code rest : Bytes} {is : List Instruction}
    (h : Spells offset code is rest) (more : Bytes) : ∃ stop, stop + rest.length = offset + code.length ∧
      resume offset 0 (code ++ more) = is.foldr step (resume stop 0 (rest ++ more)) := by
  induction h with
  | nil offset rest => exact ⟨offset, rfl, rfl⟩
  | @cons offset opcode chunk code rest is he _ ih =>
    obtain ⟨stop, hstop, ih⟩ := ih
    refine ⟨stop, ?_, ?_⟩
    · rw [hstop, List.length_append]
      omega
    · rw [List.append_assoc, resume_of_encodes he, ih, List.foldr_cons]

/-- What a walk yields goes on being yielded before more bytes. -/
theorem instructions_prefix_items (a b : Bytes) : (ofCode a).instructions.map .ok <+: (ofCode (a ++ b)).items := by
  obtain ⟨rest, hs, -⟩ := spells_resume 0 a
  obtain ⟨stop, -, hr⟩ := resume_append_of_spells hs b
  rw [ofCode, ofCode, hr, items_foldr]
  exact List.prefix_append _ _

/-- A walk without a fault goes on with the bytes that follow. -/
theorem items_append {a : Bytes} (h : (ofCode a).fault? = none) (b : Bytes) :
    (ofCode (a ++ b)).items = (ofCode a).items ++ (resume a.length 0 b).items := by
  obtain ⟨rest, hs, hr⟩ := spells_resume 0 a
  obtain rfl : rest = [] := hr.mp h
  obtain ⟨stop, hstop, hr⟩ := resume_append_of_spells hs b
  obtain rfl : stop = a.length := by simpa using hstop
  have hitems : (ofCode a).items = (resume 0 0 a).instructions.map .ok := by
    rw [items_eq, h]
    exact List.append_nil _
  rw [ofCode, hr, items_foldr, hitems, List.nil_append]

end Walk

open Walk in
/-- **Decoding code after other code.** The instructions that a walk through some code comes to are the first that it
yields if more bytes follow. If it comes to no fault, and the length of the code is a multiple of four or the walk through
those bytes meets no switch, what it yields then is what it yields on the code alone and after that what it yields on those
bytes alone, with every offset moved by the length of the code. -/
theorem decode_append (a b : Bytes) :
    (ofCode a).instructions.map .ok <+: (ofCode (a ++ b)).items ∧
    ((ofCode a).fault? = none → a.length % 4 = 0 ∨ (¬ Meets b 0xaa ∧ ¬ Meets b 0xab) →
      (ofCode (a ++ b)).items = (ofCode a).items ++ (ofCode b).items.map (movedItem a.length)) := by
  refine ⟨instructions_prefix_items a b, fun hf hm => ?_⟩
  have hmoved : resume (0 + a.length) 0 b = (ofCode b).moved a.length := by
    refine resume_add b 0 0 rfl fun o ho opcode hat => hm.imp_right ?_
    rintro ⟨htable, hlookup⟩ hswitch
    simp only [Instruction.switches, List.mem_cons, List.not_mem_nil, or_false] at hswitch
    rcases hswitch with rfl | rfl
    · exact htable ⟨o, ho, hat⟩
    · exact hlookup ⟨o, ho, hat⟩
  rw [items_append hf, ← items_moved, ← hmoved, Nat.zero_add]

/-- Four bytes of whole instructions. -/
def alignedCode : Bytes := [0x10, 0x05, 0x00, 0x57]

open Walk in
/-- A switch that ends in its padding fails where it stands, and names the offset of its operands, both four further on;
and a `return` comes after any instruction. -/
theorem decode_append_alignedCode :
    ((ofCode alignedCode).fault? = none ∧ alignedCode.length % 4 = 0) ∧
    (ofCode (alignedCode ++ [0xb1, 0xaa])).items =
      [.ok ⟨0, 0x10⟩, .ok ⟨2, 0x00⟩, .ok ⟨3, 0x57⟩, .ok ⟨4, 0xb1⟩, .error ⟨5, .operandsPastEnd 8⟩] ∧
    (ofCode ([0x00] ++ [0xb1])).items = [.ok ⟨0, 0x00⟩, .ok ⟨1, 0xb1⟩] := by
  have hf : (ofCode alignedCode).fault? = none := by decide
  have hl : alignedCode.length % 4 = 0 := rfl
  have hmeets (opcode : UInt8) (h : opcode ≠ 0xb1) : ¬ Meets [0xb1] opcode := by
    rintro ⟨o, ho, hat⟩
    obtain rfl : o = 0 := List.mem_singleton.mp ho
    exact h (Option.some.inj hat).symm
  refine ⟨⟨hf, hl⟩, (decode_append alignedCode [0xb1, 0xaa]).2 hf (.inl hl), ?_⟩
  exact (decode_append [0x00] [0xb1]).2 (by decide) (.inr ⟨hmeets 0xaa (by decide), hmeets 0xab (by decide)⟩)

end JvmAccessors
