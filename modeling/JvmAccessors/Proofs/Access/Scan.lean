import JvmAccessors.Access.Scan
import JvmAccessors.Proofs.Bytecode.Grammar

/-!
# What a scan finds

`follow` goes through a walk with what it has met so far; `follow_several`, `follow_one` and `follow_none` say what it
answers, from where the walk stops and from the accesses that its field instructions make (`access?`). So a scan finds
an access exactly if the whole code is instructions and one of them alone, which makes that access, is a field
instruction (`scan_eq_some_iff`).
-/

namespace JvmAccessors
namespace Scan

variable {p : Pool} {code : Bytes}

/-- The access that an instruction makes, or why it cannot be told; none if it is no field instruction. -/
def access? (p : Pool) (code : Bytes) (i : Instruction) : Option (Except ScanError FieldAccess) :=
  (fieldOpcode? i.opcode).map fun kind => resolve p code i.offset kind.1 kind.2

/-- The accesses that the field instructions of a walk make, in order. -/
def accesses (p : Pool) (code : Bytes) (w : Walk) : List (Except ScanError FieldAccess) :=
  w.instructions.filterMap (access? p code)

theorem accesses_step_of_none {i : Instruction} (rest : Walk) (h : fieldOpcode? i.opcode = none) :
    accesses p code (.step i rest) = accesses p code rest := by
  simp only [accesses, Walk.instructions, List.filterMap_cons, access?, h, Option.map_none]

theorem accesses_step_of_some {i : Instruction} {isStatic : Bool} {direction : Direction} (rest : Walk)
    (h : fieldOpcode? i.opcode = some (isStatic, direction)) : accesses p code (.step i rest) =
      resolve p code i.offset isStatic direction :: accesses p code rest := by
  simp only [accesses, Walk.instructions, List.filterMap_cons, access?, h, Option.map_some]

/-- An answer that stands if a walk comes to the end. -/
def unlessFault {α : Type} (w : Walk) (a : α) : Except ScanError α :=
  match w.fault? with
  | some f => .error (.undecodable f)
  | none => .ok a

theorem follow_several : ∀ w : Walk, follow p code .several w = unlessFault w .several
  | .done => rfl
  | .fault _ => rfl
  | .step i rest => by
    rw [follow]
    split <;> exact follow_several rest

/-- After one access the rest of a walk matters only for where it stops and whether it makes another. -/
theorem follow_one (a : FieldAccess) : ∀ w : Walk,
    follow p code (.one a) w = unlessFault w (if (accesses p code w).isEmpty then .one a else .several)
  | .done => rfl
  | .fault _ => rfl
  | .step i rest => by
    rw [follow]
    cases hi : fieldOpcode? i.opcode with
    | none =>
      rw [accesses_step_of_none rest hi]
      exact follow_one a rest
    | some kind =>
      rw [accesses_step_of_some rest hi]
      exact follow_several rest

/-- The first access of a walk is the answer if it cannot be told; otherwise the others are only counted. -/
theorem follow_none : ∀ w : Walk, follow p code .none w = match accesses p code w with
    | [] => unlessFault w .none
    | .error e :: _ => .error e
    | .ok a :: others => unlessFault w (if others.isEmpty then .one a else .several)
  | .done => rfl
  | .fault _ => rfl
  | .step i rest => by
    rw [follow]
    cases hi : fieldOpcode? i.opcode with
    | none =>
      rw [accesses_step_of_none rest hi]
      exact follow_none rest
    | some kind =>
      obtain ⟨isStatic, direction⟩ := kind
      rw [accesses_step_of_some rest hi]
      cases hr : resolve p code i.offset isStatic direction with
      | error e => simp only [hr]
      | ok a =>
        simp only [hr]
        exact follow_one a rest

theorem unlessFault_of_some {α : Type} {w : Walk} {f : WalkFault} (h : w.fault? = some f) (a : α) :
    unlessFault w a = .error (.undecodable f) := by
  rw [unlessFault, h]

theorem unlessFault_of_none {α : Type} {w : Walk} (h : w.fault? = none) (a : α) : unlessFault w a = .ok a := by
  rw [unlessFault, h]

end Scan

open Scan

/-- A scan, from the accesses that its walk makes: the first one is the answer if it cannot be told, and the others are
only counted. -/
theorem scan_eq (p : Pool) (code : Bytes) : scan p code = match accesses p code (Walk.ofCode code) with
    | [] => unlessFault (Walk.ofCode code) none
    | .error e :: _ => .error e
    | .ok a :: others => unlessFault (Walk.ofCode code) (if others.isEmpty then some a else none) := by
  rw [scan, follow_none]
  cases accesses p code (Walk.ofCode code) with
  | nil => cases hf : (Walk.ofCode code).fault? <;> simp [unlessFault, hf]
  | cons first others =>
    cases first with
    | error e => rfl
    | ok a => cases hf : (Walk.ofCode code).fault? <;> cases others <;> simp [unlessFault, hf]

/-- A scan finds an access exactly if the walk comes to the end and that access is the only one. -/
theorem scan_eq_some_iff {p : Pool} {code : Bytes} {a : FieldAccess} : scan p code = .ok (some a) ↔
    (Walk.ofCode code).fault? = none ∧ accesses p code (Walk.ofCode code) = [.ok a] := by
  rw [scan_eq]
  cases ha : accesses p code (Walk.ofCode code) with
  | nil => cases hf : (Walk.ofCode code).fault? <;> simp [unlessFault, hf]
  | cons first others =>
    cases first with
    | error e => simp
    | ok b => cases hf : (Walk.ofCode code).fault? <;> simp [unlessFault, hf, and_comm]

namespace Scan

/-- The opcodes of getstatic, putstatic, getfield and putfield. -/
def fieldOpcodes : List UInt8 := [0xb2, 0xb3, 0xb4, 0xb5]

theorem isSome_fieldOpcode? (opcode : UInt8) : (fieldOpcode? opcode).isSome = decide (opcode ∈ fieldOpcodes) :=
  Instruction.forall_byte (P := fun opcode => (fieldOpcode? opcode).isSome = decide (opcode ∈ fieldOpcodes))
    (by decide +kernel) opcode

theorem isSome_access? (p : Pool) (code : Bytes) (i : Instruction) :
    (access? p code i).isSome = decide (i.opcode ∈ fieldOpcodes) := by
  rw [access?, Option.isSome_map, isSome_fieldOpcode?]

/-- An instruction makes an access: its opcode says of what kind, and its operand leads to the texts of the field. -/
structure Makes (p : Pool) (code : Bytes) (i : Instruction) (a : FieldAccess) : Prop where
  kind : fieldOpcode? i.opcode = some (a.field.isStatic, a.direction)
  field : ∃ index owner nameAndType, Instruction.operand code i.offset = .ok index ∧
    p.get index = .ok (.constant (.fieldRef owner nameAndType)) ∧
    p.fieldParts owner nameAndType = .ok ⟨a.field.owner, a.field.name, a.field.type⟩

theorem access?_eq_ok {p : Pool} {code : Bytes} {i : Instruction} {a : FieldAccess} :
    access? p code i = some (.ok a) ↔ Makes p code i a := by
  constructor
  · intro h
    obtain ⟨⟨isStatic, direction⟩, hk, hr⟩ := Option.map_eq_some_iff.mp h
    simp only [resolve] at hr
    split at hr
    · cases hr
    rename_i index hi
    split at hr
    · cases hr
    · rename_i owner nameAndType hg
      split at hr
      · cases hr
      · rename_i parts hp
        cases hr
        exact ⟨hk, index, owner, nameAndType, hi, hg, hp⟩
    · cases hr
  · rintro ⟨hk, index, owner, nameAndType, hi, hg, hp⟩
    simp only [access?, hk, Option.map_some, resolve, hi, hg, hp]

/-- One entry of a list has an image exactly if one is left when those without an image are dropped. -/
theorem filterMap_eq_singleton {α β : Type} {f : α → Option β} {b : β} : ∀ {l : List α},
    l.filterMap f = [b] ↔ ∃ a, (l.filter fun a => (f a).isSome) = [a] ∧ f a = some b
  | [] => by simp
  | a :: l => by
    cases h : f a with
    | none => simp only [List.filterMap_cons, List.filter_cons, h, Option.isSome_none, Bool.false_eq_true, if_false,
        filterMap_eq_singleton]
    | some c =>
      simp only [List.filterMap_cons, List.filter_cons, h, Option.isSome_some, if_true, List.cons.injEq,
        List.filterMap_eq_nil_iff, List.filter_eq_nil_iff, Option.not_isSome_iff_eq_none]
      constructor
      · rintro ⟨rfl, hl⟩
        exact ⟨a, ⟨rfl, hl⟩, h⟩
      · rintro ⟨_, ⟨rfl, hl⟩, hb⟩
        exact ⟨Option.some.inj (h.symm.trans hb), hl⟩

/-- The code is instructions, and one of them alone is a field instruction, which makes this access. -/
def OnlyAccess (p : Pool) (code : Bytes) (a : FieldAccess) : Prop :=
  ∃ is i, Instruction.Spells 0 code is [] ∧ (is.filter fun i => i.opcode ∈ fieldOpcodes) = [i] ∧ Makes p code i a

end Scan

/-- A scan finds an access exactly if it is the only one of the code. -/
theorem scan_eq_some_iff_onlyAccess {p : Pool} {code : Bytes} {a : FieldAccess} :
    scan p code = .ok (some a) ↔ OnlyAccess p code a := by
  have hf : (fun i : Instruction => (access? p code i).isSome) = fun i => decide (i.opcode ∈ fieldOpcodes) :=
    funext (isSome_access? p code)
  rw [scan_eq_some_iff, accesses, filterMap_eq_singleton, hf]
  constructor
  · rintro ⟨hw, i, hi, ha⟩
    exact ⟨_, i, Walk.complete_iff.mp ⟨hw, rfl⟩, hi, access?_eq_ok.mp ha⟩
  · rintro ⟨is, i, hs, hi, ha⟩
    obtain ⟨hw, rfl⟩ := Walk.complete_iff.mpr hs
    exact ⟨hw, i, hi, access?_eq_ok.mpr ha⟩

end JvmAccessors
