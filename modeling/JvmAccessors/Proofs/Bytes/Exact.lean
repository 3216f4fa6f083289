import JvmAccessors.ClassFile.Layout

/-!
# Exact readers

A reader is exact for a way of writing values if it takes off the front of a byte string just what is written for the
value that it answers (`Reader.Exact`). So are the readers of words, blocks and tables (`u16_eq_ok`, `block_eq_ok_iff`,
`exact_table`); a reader that is put together from others is taken apart by `bind_eq_ok`, `map_eq_ok` and `pure_eq_ok`.
-/

namespace JvmAccessors
namespace Reader

/-- A reader answers a value exactly if the value is good and its writing stands in front of what is left. -/
def Exact {ε α : Type} (p : Reader ε α) (write : α → Bytes) (good : α → Prop) : Prop :=
  ∀ b a rest, p b = .ok (a, rest) ↔ good a ∧ b = write a ++ rest

section Combinators

variable {ε ε' α β : Type} {b rest : Bytes}

theorem pure_eq_ok {a x : α} : (pure a : Reader ε α) b = .ok (x, rest) ↔ x = a ∧ b = rest := by
  constructor
  · intro h
    cases h
    exact ⟨rfl, rfl⟩
  · rintro ⟨rfl, rfl⟩
    rfl

/-- Two readers in a row: the second goes on where the first stopped. -/
theorem bind_eq_ok {p : Reader ε α} {f : α → Reader ε β} {x : β} :
    (p >>= f) b = .ok (x, rest) ↔ ∃ a mid, p b = .ok (a, mid) ∧ f a mid = .ok (x, rest) := by
  show Except.bind (p b) (fun r => f r.1 r.2) = _ ↔ _
  cases hp : p b with
  | error e => simp [Except.bind]
  | ok r =>
    constructor
    · exact fun h => ⟨r.1, r.2, rfl, h⟩
    · rintro ⟨a, mid, h, hf⟩
      cases h
      exact hf

theorem map_eq_ok {p : Reader ε α} {f : α → β} {x : β} :
    (f <$> p) b = .ok (x, rest) ↔ ∃ a, p b = .ok (a, rest) ∧ x = f a := by
  rw [← bind_pure_comp, bind_eq_ok]
  simp only [pure_eq_ok]
  constructor
  · rintro ⟨a, _, h, rfl, rfl⟩
    exact ⟨a, h, rfl⟩
  · rintro ⟨a, h, rfl⟩
    exact ⟨a, rest, h, rfl, rfl⟩

theorem discard_eq_ok {p : Reader ε α} {u : PUnit} : discard p b = .ok (u, rest) ↔ ∃ a, p b = .ok (a, rest) := by
  show ((fun _ => PUnit.unit) <$> p) b = _ ↔ _
  simp only [map_eq_ok, and_true]

theorem mapError_eq_ok {p : Reader ε α} {f : ε → ε'} {x : α} :
    p.mapError f b = .ok (x, rest) ↔ p b = .ok (x, rest) := by
  show (p b).mapError f = _ ↔ _
  cases p b with
  | error e => exact ⟨nofun, nofun⟩
  | ok r =>
    show Except.ok r = Except.ok (x, rest) ↔ _
    rw [Except.ok.injEq, Except.ok.injEq]

end Combinators

/-! ## Words and blocks -/

section Words

variable {b rest : Bytes}

theorem block_eq_ok_iff {n : Nat} {a : Bytes} : block n b = .ok (a, rest) ↔ a.length = n ∧ b = a ++ rest := by
  refine ⟨block_eq_ok, ?_⟩
  rintro ⟨rfl, rfl⟩
  exact block_append a rest

/-- A type of words: its values are the numbers that fit in a width of bytes. -/
structure IsWord (width : Nat) {ω : Type} (of : Nat → ω) (val : ω → Nat) : Prop where
  lt : ∀ w, val w < Bytes.capacity width
  of_val : ∀ w, of (val w) = w
  val_of : ∀ n < Bytes.capacity width, val (of n) = n

namespace IsWord

variable {ω : Type} {width : Nat} {of : Nat → ω} {val : ω → Nat} (h : IsWord width of val)

include h

theorem map_eq_ok {w : ω} : (of <$> word width) b = .ok (w, rest) ↔ b = Bytes.ofNat width (val w) ++ rest := by
  rw [Reader.map_eq_ok]
  constructor
  · rintro ⟨n, hn, rfl⟩
    obtain ⟨hlt, rfl⟩ := word_eq_ok hn
    rw [h.val_of n hlt]
  · rintro rfl
    exact ⟨val w, word_ofNat_append (h.lt w) rest, (h.of_val w).symm⟩

/-- A block after a word that is its length. -/
theorem block_bind_eq_ok {α : Type} {f : Bytes → Reader Shortage α} {x : α} :
    (of <$> word width >>= fun w => block (val w) >>= f) b = .ok (x, rest) ↔
      ∃ a mid, a.length < Bytes.capacity width ∧ b = Bytes.ofNat width a.length ++ (a ++ mid) ∧
        f a mid = .ok (x, rest) := by
  simp only [bind_eq_ok, h.map_eq_ok, block_eq_ok_iff]
  constructor
  · rintro ⟨w, _, rfl, a, mid, ⟨hl, rfl⟩, hf⟩
    exact ⟨a, mid, hl ▸ h.lt w, by rw [hl], hf⟩
  · rintro ⟨a, mid, hl, rfl, hf⟩
    have hv := h.val_of a.length hl
    exact ⟨of a.length, _, by rw [hv], a, mid, ⟨hv.symm, rfl⟩, hf⟩

end IsWord

theorem isWord_u8 : IsWord 1 UInt8.ofNat UInt8.toNat :=
  ⟨UInt8.toNat_lt, fun _ => UInt8.ofNat_toNat, fun _ h => UInt8.toNat_ofNat_of_lt' h⟩

theorem isWord_u16 : IsWord 2 UInt16.ofNat UInt16.toNat :=
  ⟨UInt16.toNat_lt, fun _ => UInt16.ofNat_toNat, fun _ h => UInt16.toNat_ofNat_of_lt' h⟩

theorem isWord_u32 : IsWord 4 UInt32.ofNat UInt32.toNat :=
  ⟨UInt32.toNat_lt, fun _ => UInt32.ofNat_toNat, fun _ h => UInt32.toNat_ofNat_of_lt' h⟩

theorem isWord_u64 : IsWord 8 UInt64.ofNat UInt64.toNat :=
  ⟨UInt64.toNat_lt, fun _ => UInt64.ofNat_toNat, fun _ h => UInt64.toNat_ofNat_of_lt' h⟩

theorem u8_eq_ok {n : UInt8} : u8 b = .ok (n, rest) ↔ b = Layout.u8 n ++ rest := isWord_u8.map_eq_ok

theorem u16_eq_ok {n : UInt16} : u16 b = .ok (n, rest) ↔ b = Layout.u16 n ++ rest := isWord_u16.map_eq_ok

theorem u32_eq_ok {n : UInt32} : u32 b = .ok (n, rest) ↔ b = Layout.u32 n ++ rest := isWord_u32.map_eq_ok

theorem u64_eq_ok {n : UInt64} : u64 b = .ok (n, rest) ↔ b = Layout.u64 n ++ rest := isWord_u64.map_eq_ok

theorem u16_bind_eq_ok {α : Type} {f : UInt16 → Reader Shortage α} {x : α} :
    (u16 >>= f) b = .ok (x, rest) ↔ ∃ n mid, b = Layout.u16 n ++ mid ∧ f n mid = .ok (x, rest) := by
  simp only [bind_eq_ok, u16_eq_ok]

end Words

/-! ## Tables -/

/-- Readings in a row are exact if each is. -/
theorem times_eq_ok {ε α : Type} {p : Reader ε α} {write : α → Bytes} {good : α → Prop} (hp : Exact p write good)
    {rest : Bytes} : ∀ {n : Nat} {b : Bytes} {as : List α},
      times n p b = .ok (as, rest) ↔ as.length = n ∧ (∀ a ∈ as, good a) ∧ b = as.flatMap write ++ rest
  | 0, b, as => by
    rw [times, pure_eq_ok]
    cases as <;> simp
  | n + 1, b, as => by
    simp only [times, bind_eq_ok, pure_eq_ok, hp _ _ _, times_eq_ok hp]
    constructor
    · rintro ⟨a, _, ⟨ha, rfl⟩, as, _, ⟨hl, hg, rfl⟩, rfl, rfl⟩
      exact ⟨by simp [hl], by simpa using ⟨ha, hg⟩, by simp⟩
    · rintro ⟨hl, hg, rfl⟩
      cases as with
      | nil => simp at hl
      | cons a as =>
        have hg := List.forall_mem_cons.mp hg
        exact ⟨a, _, ⟨hg.1, by simp⟩, as, _, ⟨by simpa using hl, hg.2, rfl⟩, rfl, rfl⟩

/-- A table whose entries are good and can be counted in two bytes. -/
def Countable {α : Type} (good : α → Prop) (as : List α) : Prop := as.length < Bytes.capacity 2 ∧ ∀ a ∈ as, good a

/-- A table after the number of its entries. -/
theorem table_bind_eq_ok {α β : Type} {p : Reader Shortage α} {write : α → Bytes} {good : α → Prop}
    (hp : Exact p write good) {b rest : Bytes} {f : List α → Reader Shortage β} {x : β} :
    (u16 >>= fun n => times n.toNat p >>= f) b = .ok (x, rest) ↔
      ∃ as mid, Countable good as ∧ b = Layout.table write as ++ mid ∧ f as mid = .ok (x, rest) := by
  simp only [bind_eq_ok, u16_eq_ok, times_eq_ok hp, Layout.table, List.append_assoc]
  constructor
  · rintro ⟨n, _, rfl, as, mid, ⟨hl, hg, rfl⟩, hf⟩
    exact ⟨as, mid, ⟨hl ▸ isWord_u16.lt n, hg⟩, by rw [hl]; rfl, hf⟩
  · rintro ⟨as, mid, ⟨hl, hg⟩, rfl, hf⟩
    have hn := isWord_u16.val_of as.length hl
    exact ⟨.ofNat as.length, _, by rw [Layout.u16, hn], as, mid, ⟨hn.symm, hg, rfl⟩, hf⟩

/-- Reading a table and nothing after it. -/
theorem exact_table {α : Type} {p : Reader Shortage α} {write : α → Bytes} {good : α → Prop} (hp : Exact p write good) :
    Exact (u16 >>= fun n => times n.toNat p) (Layout.table write) (Countable good) := by
  intro b as rest
  have h : (u16 >>= fun n => times n.toNat p >>= pure) b = .ok (as, rest) ↔ _ := table_bind_eq_ok hp
  simp only [bind_pure, pure_eq_ok] at h
  rw [h]
  constructor
  · rintro ⟨as, _, hg, rfl, rfl, rfl⟩
    exact ⟨hg, rfl⟩
  · rintro ⟨hg, rfl⟩
    exact ⟨as, rest, hg, rfl, rfl, rfl⟩

end Reader
end JvmAccessors
