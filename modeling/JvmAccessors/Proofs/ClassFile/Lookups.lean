import JvmAccessors.ClassFile.Pool
import JvmAccessors.Proofs.Outcome
import JvmAccessors.Proofs.Text.Canonical

/-!
# What a lookup answers

A lookup answers the constant that a number stands for (`Pool.Holds`), if that is of the kind that is asked for
(`Pool.utf8At_eq_ok` and its siblings). The texts that a constant leads to are decoded from there: `Pool.text_eq_ok`,
`Pool.className_eq_ok`, `Pool.fieldParts_eq_ok`.
-/

namespace JvmAccessors
namespace Pool

variable {p : Pool} {i : Index}

theorem get_eq_ok_iff {s : Slot} : p.get i = .ok s ↔ i ≠ 0 ∧ p.slots[i.toNat - 1]? = some s := by
  rw [get]
  split
  · rename_i h0
    simp [h0]
  · rename_i h0
    cases p.slots[i.toNat - 1]? <;> simp [h0]

/-- A number stands for a constant: it is looked up there, in the slot of this number, counted from one. -/
structure Holds (p : Pool) (i : Index) (k : Constant) : Prop where
  found : p.get i = .ok (.constant k)
  nonzero : i ≠ 0
  within : i.toNat ≤ p.size
  slot : p.slots[i.toNat - 1]? = some (.constant k)

theorem holds_iff {k : Constant} : p.Holds i k ↔ p.get i = .ok (.constant k) := by
  refine ⟨Holds.found, fun h => ?_⟩
  obtain ⟨h0, hs⟩ := get_eq_ok_iff.mp h
  have hlt := (Array.getElem?_eq_some_iff.mp hs).1
  exact ⟨h, h0, by unfold size; omega, hs⟩

theorem mem_of_holds {k : Constant} (h : p.Holds i k) : Slot.constant k ∈ p.slots.toList :=
  Array.mem_toList_iff.mpr (Array.mem_of_getElem? h.slot)

/-! ## Constants of a kind -/

section Kinds

variable {α : Type} {kind : Kind α}

/-- A demand for a kind answers what the constant at the number holds. -/
theorem demand_eq_ok {a : α} : p.demand kind i = .ok a ↔ ∃ k, p.Holds i k ∧ kind.part k = some a := by
  simp only [holds_iff, demand]
  cases p.get i with
  | error e => simp
  | ok s =>
    cases s with
    | reserved => simp
    | constant k => cases hk : kind.part k <;> simp [hk]

/-- A demand for a kind is met exactly if a constant of this kind is there. -/
theorem exists_demand : (∃ a, p.demand kind i = .ok a) ↔ ∃ k, p.Holds i k ∧ k.tag = kind.tag := by
  have hk (k : Constant) : (∃ a, kind.part k = some a) ↔ k.tag = kind.tag := by
    rw [← Option.isSome_iff_exists, kind.isSome_part, decide_eq_true_iff]
  simp only [demand_eq_ok, ← hk]
  constructor
  · rintro ⟨a, k, h, ha⟩
    exact ⟨k, h, a, ha⟩
  · rintro ⟨k, h, a, ha⟩
    exact ⟨a, k, h, ha⟩

/-- A demand for a kind answers the constant that is spelled by what it answers. -/
theorem demand_eq_ok_iff_holds (spell : α → Constant) (hs : ∀ k a, kind.part k = some a ↔ k = spell a) {a : α} :
    p.demand kind i = .ok a ↔ p.Holds i (spell a) := by
  simp only [demand_eq_ok, hs]
  constructor
  · rintro ⟨_, h, rfl⟩
    exact h
  · intro h
    exact ⟨_, h, rfl⟩

end Kinds

theorem utf8At_eq_ok {bytes : Bytes} : p.utf8At i = .ok bytes ↔ p.Holds i (.utf8 bytes) :=
  demand_eq_ok_iff_holds .utf8 fun k a => by cases k <;> simp [Kind.utf8]

theorem classAt_eq_ok {name : Index} : p.classAt i = .ok name ↔ p.Holds i (.classRef name) :=
  demand_eq_ok_iff_holds .classRef fun k a => by cases k <;> simp [Kind.classRef]

theorem nameAndTypeAt_eq_ok {name descriptor : Index} :
    p.nameAndTypeAt i = .ok (name, descriptor) ↔ p.Holds i (.nameAndType name descriptor) :=
  demand_eq_ok_iff_holds (fun pair : Index × Index => .nameAndType pair.1 pair.2) fun k a => by
    cases k <;> simp [Kind.nameAndType, Prod.ext_iff]

/-! ## Texts -/

theorem text_eq_ok {text : String} :
    p.text i = .ok text ↔ ∃ bytes, p.utf8At i = .ok bytes ∧ ModifiedUtf8.decode bytes = .ok text := by
  simp only [Pool.text, Outcome.bind_eq_ok, Outcome.mapError_eq_ok]

theorem className_eq_ok {text : String} :
    p.className i = .ok text ↔ ∃ name, p.classAt i = .ok name ∧ p.text name = .ok text := by
  simp only [className, Outcome.bind_eq_ok, Outcome.mapError_eq_ok]

theorem fieldParts_eq_ok {owner pair : Index} {parts : FieldParts} : p.fieldParts owner pair = .ok parts ↔
    p.className owner = .ok parts.owner ∧ ∃ name descriptor, p.nameAndTypeAt pair = .ok (name, descriptor) ∧
      p.text name = .ok parts.name ∧ p.text descriptor = .ok parts.type := by
  simp only [fieldParts, Outcome.bind_eq_ok, Outcome.mapError_eq_ok]
  constructor
  · rintro ⟨ownerName, ho, ⟨name, descriptor⟩, hp, nameText, hn, type, ht, h⟩
    cases h
    exact ⟨ho, name, descriptor, hp, hn, ht⟩
  · rintro ⟨ho, name, descriptor, hp, hn, ht⟩
    exact ⟨_, ho, _, hp, _, hn, _, ht, rfl⟩

/-- A text can be had exactly if its bytes are those of one. -/
theorem exists_text_iff {bytes : Bytes} (h : p.Holds i (.utf8 bytes)) :
    (∃ text, p.text i = .ok text) ↔ ModifiedUtf8.Canonical bytes := by
  rw [← ModifiedUtf8.exists_decode_iff]
  constructor
  · rintro ⟨text, ht⟩
    obtain ⟨bytes', hb, hd⟩ := text_eq_ok.mp ht
    cases hb.symm.trans (utf8At_eq_ok.mpr h)
    exact ⟨text, hd⟩
  · rintro ⟨text, hd⟩
    exact ⟨text, text_eq_ok.mpr ⟨bytes, utf8At_eq_ok.mpr h, hd⟩⟩

/-- A text cannot be had exactly if its bytes are those of none. -/
theorem exists_text_error_iff {bytes : Bytes} (h : p.Holds i (.utf8 bytes)) :
    (∃ e, p.text i = .error e) ↔ ¬ ModifiedUtf8.Canonical bytes := by
  rw [Outcome.exists_error_iff, exists_text_iff h]

end Pool
end JvmAccessors
