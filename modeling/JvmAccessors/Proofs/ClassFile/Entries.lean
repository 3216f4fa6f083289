import JvmAccessors.ClassFile.Reader
import JvmAccessors.Proofs.Bytes.Exact

/-!
# The entries of a class file

Attributes, members and constants are read exactly as they are written (`Attribute.exact_read`, `Member.exact_read`,
`Constant.exact_read`), if their blocks and tables have lengths that can be written (`Fits`). A row of constants is read
exactly into the slots that it fills (`Constant.Fills`, `Constant.exact_readInto`).
-/

namespace JvmAccessors

open Reader

/-! ## Attributes and members -/

/-- An attribute whose content has a length of four bytes. -/
def Attribute.Fits (a : Attribute) : Prop := a.content.length < Bytes.capacity 4

/-- A member whose attributes can be counted and written. -/
def Member.Fits (m : Member) : Prop := Countable Attribute.Fits m.attributes

theorem exact_u16 : Exact u16 Layout.u16 fun _ => True := by
  intro b n rest
  rw [u16_eq_ok, true_and]

theorem Attribute.exact_read : Exact Attribute.read Attribute.layout Attribute.Fits := by
  intro b a rest
  rw [Attribute.read, bind_eq_ok]
  simp only [u16_eq_ok]
  constructor
  · rintro ⟨name, _, rfl, h⟩
    obtain ⟨content, _, hl, rfl, hp⟩ := isWord_u32.block_bind_eq_ok.mp h
    obtain ⟨rfl, rfl⟩ := pure_eq_ok.mp hp
    exact ⟨hl, by simp [Attribute.layout]⟩
  · rintro ⟨hl, rfl⟩
    exact ⟨a.name, _, by simp [Attribute.layout], isWord_u32.block_bind_eq_ok.mpr ⟨a.content, rest, hl, rfl, rfl⟩⟩

theorem Attribute.exact_readTable :
    Exact Attribute.readTable (Layout.table Attribute.layout) (Countable Attribute.Fits) :=
  exact_table Attribute.exact_read

theorem Member.exact_read : Exact Member.read Member.layout Member.Fits := by
  intro b m rest
  simp only [Member.read, bind_eq_ok, pure_eq_ok, u16_eq_ok, Attribute.exact_readTable _ _ _]
  constructor
  · rintro ⟨flags, _, rfl, name, _, rfl, descriptor, _, rfl, attributes, _, ⟨hf, rfl⟩, rfl, rfl⟩
    exact ⟨hf, by simp [Member.layout]⟩
  · rintro ⟨hf, rfl⟩
    exact ⟨m.flags, _, by simp [Member.layout], m.name, _, rfl, m.descriptor, _, rfl, m.attributes, rest, ⟨hf, rfl⟩,
      rfl, rfl⟩

/-! ## Constants -/

section Lifts

variable {α : Type} {b rest : Bytes} {a : α}

theorem liftM_reader_eq_ok {p : Reader Shortage α} :
    (liftM p : Reader ParseError α) b = .ok (a, rest) ↔ p b = .ok (a, rest) :=
  mapError_eq_ok

theorem liftM_except_eq_ok {x : Except ParseError α} :
    (liftM x : Reader ParseError α) b = .ok (a, rest) ↔ x = .ok a ∧ b = rest := by
  show (x >>= fun a => pure (a, b)) = _ ↔ _
  cases x with
  | error e =>
    show Except.error e = _ ↔ _
    simp
  | ok x =>
    show Except.ok (x, b) = _ ↔ _
    simp

end Lifts

/-- A byte stands for a kind exactly if it is the tag byte of that kind. -/
theorem Tag.ofByte_eq_ok {n : UInt8} {tag : Tag} : Tag.ofByte n = .ok tag ↔ n = tag.byte := by
  have hb : Tag.ofByte? n = some tag ↔ n = tag.byte := by
    refine ⟨fun h => ?_, fun h => h ▸ Tag.ofByte?_byte tag⟩
    unfold Tag.ofByte? at h
    split at h <;> cases h <;> rfl
  rw [← hb, Tag.ofByte]
  split <;> simp_all

namespace Constant

/-- A constant whose text, if it is one, has a length of two bytes. -/
def Fits : Constant → Prop
  | utf8 bytes => bytes.length < Bytes.capacity 2
  | _ => True

/-- What follows a tag is read exactly as it is written for a constant of that kind. -/
theorem readBody_eq_ok {tag : Tag} {b rest : Bytes} {k : Constant} :
    readBody tag b = .ok (k, rest) ↔ k.tag = tag ∧ k.Fits ∧ b = k.body ++ rest := by
  constructor
  · intro h
    cases tag
    case utf8 =>
      obtain ⟨bytes, _, hl, rfl, hp⟩ := isWord_u16.block_bind_eq_ok.mp h
      obtain ⟨rfl, rfl⟩ := pure_eq_ok.mp hp
      exact ⟨rfl, hl, by simp [body]⟩
    all_goals simp only [readBody, bind_eq_ok, pure_eq_ok, u8_eq_ok, u16_eq_ok, u32_eq_ok, u64_eq_ok] at h
    case fieldRef | methodRef | interfaceMethodRef | nameAndType | methodHandle | dynamic | invokeDynamic =>
      obtain ⟨first, _, rfl, second, _, rfl, rfl, rfl⟩ := h
      exact ⟨rfl, trivial, by simp [body]⟩
    all_goals
      obtain ⟨only, _, rfl, rfl, rfl⟩ := h
      exact ⟨rfl, trivial, rfl⟩
  · rintro ⟨rfl, hf, rfl⟩
    cases k
    case utf8 bytes =>
      exact isWord_u16.block_bind_eq_ok.mpr ⟨bytes, rest, hf, by simp [body], rfl⟩
    all_goals simp only [tag, readBody, bind_eq_ok, pure_eq_ok, u8_eq_ok, u16_eq_ok, u32_eq_ok, u64_eq_ok]
    case fieldRef | methodRef | interfaceMethodRef | nameAndType | methodHandle | dynamic | invokeDynamic =>
      exact ⟨_, _, List.append_assoc _ _ _, _, _, rfl, rfl, rfl⟩
    all_goals exact ⟨_, _, rfl, rfl, rfl⟩

theorem exact_read : Exact Constant.read Constant.layout Constant.Fits := by
  intro b k rest
  simp only [Constant.read, bind_eq_ok, liftM_reader_eq_ok, liftM_except_eq_ok, u8_eq_ok, Tag.ofByte_eq_ok,
    readBody_eq_ok]
  constructor
  · rintro ⟨_, _, rfl, tag, _, ⟨rfl, rfl⟩, rfl, hf, rfl⟩
    exact ⟨hf, by simp [layout]⟩
  · rintro ⟨hf, rfl⟩
    exact ⟨_, _, by rw [layout, List.append_assoc], k.tag, _, ⟨rfl, rfl⟩, rfl, hf, rfl⟩

/-! ## Rows of constants -/

/-- The slots that some constants take. -/
def slotCount (ks : List Constant) : Nat := (ks.flatMap slots).length

/-- Constants that fill free slots: each starts in one of them, and together they take them all. -/
def Fills (free : Nat) (ks : List Constant) : Prop :=
  (∀ before k after, ks = before ++ k :: after → slotCount before < free) ∧ free ≤ slotCount ks

theorem length_slots (k : Constant) : k.slots.length = if k.isWide then 2 else 1 := by
  unfold slots
  split <;> rfl

theorem slots_pos (k : Constant) : 0 < k.slots.length := by
  rw [length_slots]
  split <;> decide

theorem slotCount_cons (k : Constant) (ks : List Constant) : slotCount (k :: ks) = k.slots.length + slotCount ks := by
  rw [slotCount, List.flatMap_cons, List.length_append, slotCount]

theorem fills_nil {free : Nat} : Fills free [] ↔ free = 0 := by
  simp [Fills, slotCount]

/-- The first of some constants takes its slots, and the others fill those that are left. -/
theorem fills_cons {free : Nat} {k : Constant} {ks : List Constant} :
    Fills free (k :: ks) ↔ 0 < free ∧ Fills (free - k.slots.length) ks := by
  have hk := slots_pos k
  simp only [Fills, slotCount_cons]
  constructor
  · rintro ⟨hs, hf⟩
    refine ⟨hs [] k ks rfl, fun before k' after h => ?_, by omega⟩
    have hb := hs (k :: before) k' after (by rw [h, List.cons_append])
    rw [slotCount_cons] at hb
    omega
  · rintro ⟨h0, hs, hf⟩
    refine ⟨fun before k' after h => ?_, by omega⟩
    cases before with
    | nil => exact h0
    | cons b before =>
      obtain ⟨rfl, rfl⟩ := List.cons.inj h
      have hb := hs before k' after rfl
      rw [slotCount_cons]
      omega

/-- Into free slots a constant is read, and others into the slots that it leaves. -/
theorem readInto_succ (free : Nat) : readInto (free + 1) = do
    let k ← Constant.read
    return k :: (← readInto (free + 1 - k.slots.length)) := by
  cases free with
  | zero =>
    rw [readInto]
    refine bind_congr fun k => ?_
    have hk : 0 + 1 - k.slots.length = 0 := by rw [length_slots]; split <;> rfl
    rw [hk, readInto, pure_bind]
  | succ free =>
    rw [readInto]
    refine bind_congr fun k => ?_
    rw [length_slots]
    split <;> rfl

/-- **Constants are read into free slots exactly if they fill these**, whatever stands after them. -/
theorem exact_readInto (free : Nat) : Exact (readInto free) (List.flatMap Constant.layout)
    fun ks => Fills free ks ∧ ∀ k ∈ ks, k.Fits := by
  -- a wide constant leaves two slots fewer, so the induction is not step by step
  induction free using Nat.strongRecOn with
  | ind free ih =>
    intro b ks rest
    cases free with
    | zero =>
      rw [readInto, pure_eq_ok]
      cases ks with
      | nil => simp [fills_nil]
      | cons k ks => simp [fills_cons]
    | succ free =>
      rw [readInto_succ]
      have ih (k : Constant) := ih (free + 1 - k.slots.length) (by have := slots_pos k; omega)
      simp only [bind_eq_ok, pure_eq_ok, exact_read _ _ _]
      constructor
      · rintro ⟨k, _, ⟨hk, rfl⟩, ks, _, h, rfl, rfl⟩
        obtain ⟨⟨hf, hks⟩, rfl⟩ := (ih k _ _ _).mp h
        exact ⟨⟨fills_cons.mpr ⟨Nat.succ_pos free, hf⟩, List.forall_mem_cons.mpr ⟨hk, hks⟩⟩, by simp⟩
      · rintro ⟨⟨hf, hks⟩, rfl⟩
        cases ks with
        | nil => cases fills_nil.mp hf
        | cons k ks =>
          obtain ⟨hk, hks⟩ := List.forall_mem_cons.mp hks
          have hr := (ih k _ _ rest).mpr ⟨⟨(fills_cons.mp hf).2, hks⟩, rfl⟩
          exact ⟨k, _, ⟨hk, by simp⟩, ks, rest, hr, rfl, rfl⟩

end Constant
end JvmAccessors
