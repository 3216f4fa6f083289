import JvmAccessors.Proofs.Access.Answers
import JvmAccessors.Proofs.ClassFile.Growth

/-!
# Scans over pools that grow

A scan looks up the field of one instruction only, so it is kept like the lookups of this field when the pool grows
(`Pool.Grows.scan`): another answer can come only of a failure for want of a slot. Main statement: in a pool that is
filled slot by slot nothing that was found or refused ever changes, whatever is inserted later
(`Pool.insertAll_keeps`).
-/

namespace JvmAccessors

open Outcome (Kept)

/-- A scan failed for want of a slot: that of the field, or one that the field leads to. -/
def ScanError.IsMissing (e : ScanError) : Prop :=
  (∃ cause : LookupError, cause.IsMissing ∧ e = .lookup cause) ∨ ∃ cause : TextError, cause.IsMissing ∧ e = .text cause

namespace Pool

open Scan

variable {p p' : Pool} {code : Bytes} {i : Instruction}

/-- A field instruction makes the same access in a pool that has grown. -/
theorem Grows.makes (h : p.Grows p') {a : FieldAccess} (ha : Makes p code i a) : Makes p' code i a := by
  obtain ⟨index, owner, nameAndType, ho, hg, hp⟩ := ha.field
  exact ⟨ha.kind, index, owner, nameAndType, ho, (h index).ok hg, (h.fieldParts owner nameAndType).ok hp⟩

/-- An operand that leads to no field still leads to none in a pool that has grown, unless a slot was missing. -/
theorem Grows.unresolved (h : p.Grows p') {e : ScanError} (he : Unresolved p code i e) (hm : ¬ e.IsMissing) :
    Unresolved p' code i e := by
  cases he with
  | lookup ho hg => exact .lookup ho ((h _).error hg fun hc => hm (.inl ⟨_, hc, rfl⟩))
  | notField ho hg hne => exact .notField ho ((h _).ok hg) hne
  | text ho hg hp => exact .text ho ((h _).ok hg) ((h.fieldParts _ _).error hp fun hc => hm (.inr ⟨_, hc, rfl⟩))

/-- **A scan is kept when the pool grows**, unless it failed for want of a slot. -/
theorem Grows.scan (h : p.Grows p') (code : Bytes) :
    Kept ScanError.IsMissing (JvmAccessors.scan p code) (JvmAccessors.scan p' code) := by
  cases hi : fieldInstructions code with
  | nil =>
    rw [scan_of_nil hi, scan_of_nil hi]
    exact .refl _
  | cons i rest =>
    rcases makes_or_unresolved p (hi ▸ List.mem_cons_self) with ⟨a, ha⟩ | ⟨e, he⟩
    · rw [scan_of_makes hi ha, scan_of_makes hi (h.makes ha)]
      exact .refl _
    · rw [scan_of_unresolved hi he]
      refine ⟨nofun, fun hs hm => ?_⟩
      cases hs
      exact scan_of_unresolved hi (h.unresolved he hm)

/-- **What is found in a pool, or refused, stays so while the pool grows.** A pool that is filled slot by slot has at each
number, counted from one, the slot that was inserted in its place; at zero and beyond its slots it has nothing, and those
are the only failures of this lookup. Let more slots be inserted, and let a number be kept from before or after, whether
or not its slot was there. A constant of a kind, a text, the name of a class and the texts of a field that were had are
had again; where the constant is of another kind or a text cannot be decoded, so it is again, and only what failed for
want of a slot is open. So a scan answers what it answered before. -/
theorem insertAll_keeps (slots more : List Slot) :
    let p := empty.insertAll slots
    let p' := p.insertAll more
    p' = empty.insertAll (slots ++ more) ∧
    (∀ i s, p.get i = .ok s ↔ 1 ≤ i.toNat ∧ i.toNat ≤ min slots.length 65535 ∧ slots[i.toNat - 1]? = some s) ∧
    (∀ i e, p.get i = .error e ↔ i = 0 ∧ e = .zeroIndex ∨ slots.length < i.toNat ∧ e = .missing i) ∧
    (∀ i, Kept LookupError.IsMissing (p.get i) (p'.get i)) ∧
    (∀ (α : Type) (kind : Kind α) i, Kept LookupError.IsMissing (p.demand kind i) (p'.demand kind i)) ∧
    (∀ i, Kept TextError.IsMissing (p.text i) (p'.text i)) ∧
    (∀ i, Kept TextError.IsMissing (p.className i) (p'.className i)) ∧
    (∀ owner pair, Kept TextError.IsMissing (p.fieldParts owner pair) (p'.fieldParts owner pair)) ∧
    (∀ code v, JvmAccessors.scan p code = .ok v → JvmAccessors.scan p' code = .ok v) ∧
    ∀ code, Kept ScanError.IsMissing (JvmAccessors.scan p code) (JvmAccessors.scan p' code) := by
  intro p p'
  have h : p.Grows p' := grows_insertAll p more
  exact ⟨(insertAll_append empty slots more).symm, fun i s => get_insertAll_eq_ok, fun i e => get_insertAll_eq_error, h,
    fun _ => h.demand, h.text, h.className, h.fieldParts, fun code _ => (h.scan code).ok, h.scan⟩

/-- A class whose name is not there yet, and bytes that are no text. -/
def unfinishedSlots : List Slot := [.constant (.classRef 3), .constant (.utf8 [0x00])]

/-- The name of the class is there after it is inserted; a text that cannot be decoded, a constant of another kind and a
field instruction that names no field are refused as before. -/
theorem insertAll_forwardName :
    (empty.insertAll unfinishedSlots).className 1 = .error (.lookup (.missing 3)) ∧
    ((empty.insertAll unfinishedSlots).insertAll [.constant (.utf8 [0x4f])]).get 3 = .ok (.constant (.utf8 [0x4f])) ∧
    ((empty.insertAll unfinishedSlots).insertAll [.constant (.utf8 [0x4f])]).text 2 = .error (.encoding (.rawNul 0)) ∧
    ((empty.insertAll unfinishedSlots).insertAll [.constant (.utf8 [0x4f])]).demand .utf8 1 =
      .error (.wrongKind .utf8 (.constant (.classRef 3)) 1) ∧
    JvmAccessors.scan ((empty.insertAll unfinishedSlots).insertAll [.constant (.utf8 [0x4f])]) [0xb2, 0x00, 0x01] =
      .error (.notField 0 (.constant (.classRef 3)) 1) := by
  obtain ⟨happend, -, -, -, hdemand, htext, -, -, -, hscan⟩ :=
    insertAll_keeps unfinishedSlots [.constant (.utf8 [0x4f])]
  obtain ⟨-, hget, -⟩ := insertAll_keeps (unfinishedSlots ++ [.constant (.utf8 [0x4f])]) []
  refine ⟨rfl, ?_, (htext 2).error rfl ?_, (hdemand _ .utf8 1).error rfl ?_, (hscan _).error rfl ?_⟩
  · rw [happend]
    exact (hget 3 _).mpr ⟨by decide, by decide, rfl⟩
  · rintro ⟨_, -, h⟩
    cases h
  · rintro ⟨_, h⟩
    cases h
  · rintro (⟨_, -, h⟩ | ⟨_, -, h⟩) <;> cases h

end Pool
end JvmAccessors
