import JvmAccessors.Proofs.ClassFile.Lookups

/-!
# Pools that grow

A pool is filled slot by slot (`Pool.insertAll`), and a number may be kept before its slot is there. What is looked up
there is settled by the first slot that it finds: an insertion changes no answer and no failure but one for want of a
slot (`Outcome.Kept`, `Pool.get_insert`). So it is for pools that grow by any number of slots (`Pool.Grows`,
`Pool.grows_insertAll`), and for all that follows numbers through a pool: constants of a kind (`Pool.Grows.demand`), the
texts that they lead to (`Pool.Grows.text`, `Pool.Grows.className`) and the texts of a field (`Pool.Grows.fieldParts`).
-/

namespace JvmAccessors

/-! ## Outcomes that are kept -/

namespace Outcome

variable {ε ε' α β : Type} {IsOpen : ε → Prop} {IsOpen' : ε' → Prop}

/-- **An outcome is kept**: what was answered is answered again, and what failed fails again for the same cause, unless
this cause leaves it open. -/
structure Kept (IsOpen : ε → Prop) (x x' : Except ε α) : Prop where
  ok : ∀ {a}, x = .ok a → x' = .ok a
  error : ∀ {e}, x = .error e → ¬ IsOpen e → x' = .error e

theorem Kept.refl (x : Except ε α) : Kept IsOpen x x := ⟨id, fun h _ => h⟩

theorem Kept.trans {x y z : Except ε α} (h : Kept IsOpen x y) (h' : Kept IsOpen y z) : Kept IsOpen x z :=
  ⟨fun hx => h'.ok (h.ok hx), fun hx ho => h'.error (h.error hx ho) ho⟩

/-- Computations in a row are kept if each is. -/
theorem Kept.bind {x x' : Except ε α} {f f' : α → Except ε β} (hx : Kept IsOpen x x')
    (hf : ∀ a, Kept IsOpen (f a) (f' a)) : Kept IsOpen (x >>= f) (x' >>= f') where
  ok h := by
    obtain ⟨a, ha, hb⟩ := bind_eq_ok.mp h
    exact bind_eq_ok.mpr ⟨a, hx.ok ha, (hf a).ok hb⟩
  error h ho := by
    rcases bind_eq_error.mp h with he | ⟨a, ha, he⟩
    · exact bind_eq_error.mpr (.inl (hx.error he ho))
    · exact bind_eq_error.mpr (.inr ⟨a, hx.ok ha, (hf a).error he ho⟩)

/-- Renaming the causes of failures does not matter, if what was open stays open. -/
theorem Kept.mapError {x x' : Except ε α} {f : ε → ε'} (hx : Kept IsOpen x x') (hf : ∀ e, IsOpen e → IsOpen' (f e)) :
    Kept IsOpen' (x.mapError f) (x'.mapError f) where
  ok h := mapError_eq_ok.mpr (hx.ok (mapError_eq_ok.mp h))
  error h ho := by
    obtain ⟨e, he, rfl⟩ := mapError_eq_error.mp h
    exact mapError_eq_error.mpr ⟨e, hx.error he (mt (hf e) ho), rfl⟩

end Outcome

open Outcome (Kept)

/-- A lookup failed for want of a slot. -/
def LookupError.IsMissing (e : LookupError) : Prop := ∃ i, e = .missing i

/-- A text could not be had for want of a slot. -/
def TextError.IsMissing (e : TextError) : Prop := ∃ cause : LookupError, cause.IsMissing ∧ e = .lookup cause

namespace Pool

variable {p p' : Pool} {i : Index}

/-! ## Insertions -/

/-- The pool with more slots, inserted one after the other. -/
def insertAll (p : Pool) (slots : List Slot) : Pool := slots.foldl insert p

theorem insertAll_append (p : Pool) (slots more : List Slot) :
    p.insertAll (slots ++ more) = (p.insertAll slots).insertAll more := List.foldl_append

theorem toList_insertAll (p : Pool) (slots : List Slot) : (p.insertAll slots).slots.toList = p.slots.toList ++ slots := by
  induction slots generalizing p with
  | nil => exact (List.append_nil _).symm
  | cons s slots ih =>
    have hcons : p.insertAll (s :: slots) = (p.insert s).insertAll slots := rfl
    rw [hcons, ih, insert, Array.toList_push, List.append_assoc, List.singleton_append]

theorem slots_insertAll_empty (slots : List Slot) (n : Nat) : (empty.insertAll slots).slots[n]? = slots[n]? := by
  rw [← Array.getElem?_toList, toList_insertAll]
  rfl

/-- A number finds the slot that was inserted in its place, counted from one. -/
theorem get_insertAll_eq_ok {slots : List Slot} {s : Slot} : (empty.insertAll slots).get i = .ok s ↔
    1 ≤ i.toNat ∧ i.toNat ≤ min slots.length 65535 ∧ slots[i.toNat - 1]? = some s := by
  have h0 : i ≠ 0 ↔ 1 ≤ i.toNat := by
    rw [Ne, ← UInt16.toNat_inj]
    exact Nat.one_le_iff_ne_zero.symm
  rw [get_eq_ok_iff, slots_insertAll_empty, h0]
  refine and_congr_right fun hi => (and_iff_right_of_imp fun hs => ?_).symm
  have hlt := (List.getElem?_eq_some_iff.mp hs).1
  have hword := i.toNat_lt
  omega

/-- A number finds nothing if it is zero or that of no slot so far. -/
theorem get_insertAll_eq_error {slots : List Slot} {e : LookupError} : (empty.insertAll slots).get i = .error e ↔
    i = 0 ∧ e = .zeroIndex ∨ slots.length < i.toNat ∧ e = .missing i := by
  rw [get, slots_insertAll_empty]
  split
  · rename_i h0
    simp [h0, eq_comm]
  · rename_i h0
    have hpos : 1 ≤ i.toNat := Nat.one_le_iff_ne_zero.mpr fun h => h0 (UInt16.toNat_inj.mp h)
    cases hs : slots[i.toNat - 1]? with
    | none =>
      have hle := List.getElem?_eq_none_iff.mp hs
      simp [h0, eq_comm, show slots.length < i.toNat by omega]
    | some s =>
      have hlt := (List.getElem?_eq_some_iff.mp hs).1
      simp [h0, show ¬ slots.length < i.toNat by omega]

/-- An insertion settles nothing but a failure for want of a slot. -/
theorem get_insert (p : Pool) (s : Slot) (i : Index) :
    Kept LookupError.IsMissing (p.get i) ((p.insert s).get i) := by
  by_cases h0 : i = 0
  · rw [get, get, if_pos h0, if_pos h0]
    exact .refl _
  · rw [get, get, if_neg h0, if_neg h0]
    cases hs : p.slots[i.toNat - 1]? with
    | none =>
      refine ⟨fun h => ?_, fun h hm => ?_⟩
      · cases h
      · cases h
        exact absurd ⟨i, rfl⟩ hm
    | some found =>
      have hlt := (Array.getElem?_eq_some_iff.mp hs).1
      have hpush : (p.insert s).slots[i.toNat - 1]? = some found := by
        rw [insert, Array.getElem?_push, if_neg (by omega), hs]
      rw [hpush]
      exact .refl _

/-- **A pool grows into another** if all its lookups are kept. -/
def Grows (p p' : Pool) : Prop := ∀ i, Kept LookupError.IsMissing (p.get i) (p'.get i)

theorem grows_insertAll (p : Pool) (slots : List Slot) : p.Grows (p.insertAll slots) := by
  induction slots generalizing p with
  | nil => exact fun _ => .refl _
  | cons s slots ih => exact fun i => (get_insert p s i).trans (ih (p.insert s) i)

/-! ## Lookups in a pool that grows -/

namespace Grows

variable (h : p.Grows p')

include h

/-- A constant of a kind is settled with the slot. -/
theorem demand {α : Type} (kind : Kind α) (i : Index) :
    Kept LookupError.IsMissing (p.demand kind i) (p'.demand kind i) := by
  unfold Pool.demand
  cases hg : p.get i with
  | ok s =>
    rw [(h i).ok hg]
    exact .refl _
  | error e =>
    refine ⟨nofun, fun he hm => ?_⟩
    cases he
    rw [(h i).error hg hm]

/-- The text at a number is settled with the slot, whether or not it can be decoded. -/
theorem text (i : Index) : Kept TextError.IsMissing (p.text i) (p'.text i) :=
  ((h.demand .utf8 i).mapError fun e he => ⟨e, he, rfl⟩).bind fun _ => .refl _

theorem className (i : Index) : Kept TextError.IsMissing (p.className i) (p'.className i) :=
  ((h.demand .classRef i).mapError fun e he => ⟨e, he, rfl⟩).bind h.text

theorem fieldParts (owner nameAndType : Index) :
    Kept TextError.IsMissing (p.fieldParts owner nameAndType) (p'.fieldParts owner nameAndType) :=
  (h.className owner).bind fun _ => ((h.demand .nameAndType nameAndType).mapError fun e he => ⟨e, he, rfl⟩).bind
    fun pair => (h.text pair.1).bind fun _ => (h.text pair.2).bind fun _ => .refl _

end Grows
end Pool
end JvmAccessors
