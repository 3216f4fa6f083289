import JvmAccessors.Proofs.ClassFile.Image

/-!
# Class files and more bytes

What a reader takes off the front of a byte string does not depend on what stands further back, unless it comes to the
end. So bytes that are added at the end leave a reading as it was, or follow what it left over, and only a failure for
want of bytes can turn into something else (`Reader.Steady`). Readers that are exact and fail for want of bytes only are
steady (`Reader.Exact.steady_liftM`), readers in a row are if each is (`Reader.Steady.bind`), and so is the reading of a
class file (`ClassImage.steady_read`).

Since a class file is read to its end, no class file then starts another one, and one that is cut off fails for want of
bytes (`ClassFile.parse_more_bytes`).
-/

namespace JvmAccessors

namespace Reader

variable {ε α β : Type} {IsShortage : ε → Prop} {p : Reader ε α}

/-- **More bytes at the end change nothing but a shortage.** What a steady reader answers it answers again, and leaves
those bytes after what it left before; and it fails again for the same cause, if that was no shortage. -/
structure Steady (IsShortage : ε → Prop) (p : Reader ε α) : Prop where
  ok : ∀ {b rest : Bytes} {a : α}, p b = .ok (a, rest) → ∀ more, p (b ++ more) = .ok (a, rest ++ more)
  error : ∀ {b : Bytes} {e : ε}, p b = .error e → ¬ IsShortage e → ∀ more, p (b ++ more) = .error e

/-- Two readers in a row fail if the first does, or if the second does on what the first left. -/
theorem bind_eq_error {f : α → Reader ε β} {b : Bytes} {e : ε} : (p >>= f) b = .error e ↔
    p b = .error e ∨ ∃ a mid, p b = .ok (a, mid) ∧ f a mid = .error e := by
  show Except.bind (p b) (fun r => f r.1 r.2) = _ ↔ _
  cases hp : p b with
  | error e' => simp [Except.bind]
  | ok r =>
    constructor
    · exact fun h => .inr ⟨r.1, r.2, rfl, h⟩
    · rintro (h | ⟨a, mid, h, hf⟩)
      · cases h
      · cases h
        exact hf

theorem steady_pure (a : α) : Steady IsShortage (pure a) where
  ok h more := by
    obtain ⟨rfl, rfl⟩ := pure_eq_ok.mp h
    rfl
  error h := by cases h

theorem steady_throw (e : ε) : Steady IsShortage (throw e : Reader ε α) where
  ok h := by cases h
  error h _ more := by
    cases h
    rfl

/-- Steady readers in a row are steady. -/
theorem Steady.bind {f : α → Reader ε β} (hp : Steady IsShortage p) (hf : ∀ a, Steady IsShortage (f a)) :
    Steady IsShortage (p >>= f) where
  ok h more := by
    obtain ⟨a, mid, ha, hb⟩ := bind_eq_ok.mp h
    exact bind_eq_ok.mpr ⟨a, mid ++ more, hp.ok ha more, (hf a).ok hb more⟩
  error h hs more := by
    rcases bind_eq_error.mp h with he | ⟨a, mid, ha, he⟩
    · exact bind_eq_error.mpr (.inl (hp.error he hs more))
    · exact bind_eq_error.mpr (.inr ⟨a, mid ++ more, hp.ok ha more, (hf a).error he hs more⟩)

/-- An exact reader answers the same before more bytes. -/
theorem Exact.append {write : α → Bytes} {good : α → Prop} (hp : Exact p write good) {b rest : Bytes} {a : α}
    (h : p b = .ok (a, rest)) (more : Bytes) : p (b ++ more) = .ok (a, rest ++ more) := by
  obtain ⟨ha, rfl⟩ := (hp b a rest).mp h
  exact (hp _ a _).mpr ⟨ha, List.append_assoc _ _ _⟩

end Reader

open Reader

/-- A failure for want of bytes. -/
def ParseError.IsShortage (e : ParseError) : Prop := ∃ cause, e = .shortage cause

section Steady

variable {α : Type}

/-- An exact reader is steady if it can fail for want of bytes only. -/
theorem Reader.Exact.steady_liftM {p : Reader Shortage α} {write : α → Bytes} {good : α → Prop}
    (hp : Exact p write good) : Steady ParseError.IsShortage (liftM p : Reader ParseError α) where
  ok h more := liftM_reader_eq_ok.mpr (hp.append (liftM_reader_eq_ok.mp h) more)
  error {b e} h hs := by
    obtain ⟨cause, -, rfl⟩ := Outcome.mapError_eq_error.mp (show (p b).mapError ParseError.shortage = .error e from h)
    exact absurd ⟨cause, rfl⟩ hs

theorem steady_u8 : Steady ParseError.IsShortage (liftM u8) := by
  have h : Exact u8 Layout.u8 fun _ => True := fun b n rest => by rw [u8_eq_ok, true_and]
  exact h.steady_liftM

theorem steady_u16 : Steady ParseError.IsShortage (liftM u16) := exact_u16.steady_liftM

theorem steady_u32 : Steady ParseError.IsShortage (liftM u32) := by
  have h : Exact u32 Layout.u32 fun _ => True := fun b n rest => by rw [u32_eq_ok, true_and]
  exact h.steady_liftM

/-- What does not read at all is steady. -/
theorem steady_liftM_except (x : Except ParseError α) :
    Steady ParseError.IsShortage (liftM x : Reader ParseError α) := by
  cases x with
  | error e => exact steady_throw e
  | ok a => exact steady_pure a

/-! ## The parts of a class file -/

theorem Constant.steady_readBody (tag : Tag) : Steady ParseError.IsShortage (liftM (Constant.readBody tag)) := by
  have h : Exact (Constant.readBody tag) Constant.body fun k => k.tag = tag ∧ k.Fits :=
    fun b k rest => by rw [Constant.readBody_eq_ok, and_assoc]
  exact h.steady_liftM

theorem Constant.steady_read : Steady ParseError.IsShortage Constant.read :=
  steady_u8.bind fun _ => (steady_liftM_except _).bind Constant.steady_readBody

theorem Constant.steady_readInto (free : Nat) : Steady ParseError.IsShortage (Constant.readInto free) := by
  induction free using Nat.strongRecOn with
  | ind free ih =>
    cases free with
    | zero => exact steady_pure []
    | succ free =>
      rw [Constant.readInto_succ]
      refine Constant.steady_read.bind fun k => ?_
      have hk := Constant.slots_pos k
      exact (ih (free + 1 - k.slots.length) (by omega)).bind fun ks => steady_pure (k :: ks)

namespace ClassImage

theorem steady_readHeader : Steady ParseError.IsShortage ClassImage.readHeader := by
  unfold ClassImage.readHeader
  refine steady_u32.bind fun magic => ?_
  split
  · -- the wrong number in front is told before anything else is read
    exact steady_throw (ParseError.badMagic magic)
  · exact steady_u16.bind fun minor => steady_u16.bind fun major => steady_u16.bind fun count => steady_pure _

theorem steady_readBody (minor major poolCount : UInt16) (ks : List Constant) :
    Steady ParseError.IsShortage (liftM (ClassImage.readBody minor major poolCount ks)) := by
  have h : Exact (ClassImage.readBody minor major poolCount ks) body fun s =>
      (s.minor = minor ∧ s.major = major ∧ s.poolCount = poolCount ∧ s.constants = ks) ∧
      Countable (fun _ => True) s.interfaces ∧ Countable Member.Fits s.fields ∧ Countable Member.Fits s.methods ∧
      Countable Attribute.Fits s.attributes := by
    intro b s rest
    simp only [readBody_eq_ok, and_assoc]
  exact h.steady_liftM

/-- The reading of a class file is steady. -/
theorem steady_read : Steady ParseError.IsShortage ClassImage.read :=
  -- the constants are checked without a look at the bytes after them
  steady_readHeader.bind fun (minor, major, poolCount) => (Constant.steady_readInto _).bind fun ks =>
    (steady_liftM_except (ClassImage.checkPool ks)).bind fun _ => steady_readBody minor major poolCount ks

end ClassImage

end Steady

namespace ClassFile

/-- A class file before more bytes leaves these over. -/
theorem parse_append_of_ok {b : Bytes} {c : ClassFile} (h : parse b = .ok c) {more : Bytes} (hm : more ≠ []) :
    parse (b ++ more) = .error .extraBytes := by
  obtain ⟨s, hr, -⟩ := parse_eq_ok.mp h
  obtain ⟨x, xs, rfl⟩ := List.exists_cons_of_ne_nil hm
  have hr' := ClassImage.steady_read.ok hr (x :: xs)
  simp only [parse, ofReading, hr', List.nil_append, id]

/-- A failure that is no shortage, extra bytes among them, stays what it is before more bytes. -/
theorem parse_append_of_error {b : Bytes} {e : ParseError} (h : parse b = .error e) (he : ¬ e.IsShortage)
    (more : Bytes) : parse (b ++ more) = .error e := by
  unfold parse ofReading at h
  split at h
  · rename_i e' hr
    cases h
    simp only [parse, ofReading, ClassImage.steady_read.error hr he more]
  · cases h
  · rename_i s x xs hr
    cases h
    simp only [parse, ofReading, ClassImage.steady_read.ok hr more, List.cons_append, id]

/-- **What more bytes at the end do to a class file.** A class file before more bytes has extra bytes; a failure that is
no shortage, extra bytes among them, stays the same. So no class file starts a longer one, and what starts a class file
and is not all of it fails for want of bytes. -/
theorem parse_more_bytes (b more : Bytes) (hm : more ≠ []) :
    (∀ c, parse b = .ok c → parse (b ++ more) = .error .extraBytes) ∧
    (parse b = .error .extraBytes → parse (b ++ more) = .error .extraBytes) ∧
    (∀ e, parse b = .error e → ¬ e.IsShortage → parse (b ++ more) = .error e) ∧
    (∀ c c', parse b = .ok c → parse (b ++ more) ≠ .ok c') ∧
    ∀ c, parse (b ++ more) = .ok c → ∃ e, parse b = .error e ∧ e.IsShortage := by
  have hextra : ¬ ParseError.IsShortage .extraBytes := nofun
  refine ⟨fun c h => parse_append_of_ok h hm, fun h => parse_append_of_error h hextra more,
    fun e h he => parse_append_of_error h he more, fun c c' h h' => ?_, fun c h => ?_⟩
  · rw [parse_append_of_ok h hm] at h'
    cases h'
  · cases hb : parse b with
    | ok c' =>
      rw [parse_append_of_ok hb hm] at h
      cases h
    | error e =>
      refine ⟨e, rfl, Classical.byContradiction fun he => ?_⟩
      rw [parse_append_of_error hb he more] at h
      cases h

/-- A class `O` without members. -/
def bareImage : ClassImage where
  minor := 0
  major := 52
  poolCount := 3
  constants := [.utf8 [0x4f], .classRef 1]
  flags := 0x0020
  thisClass := 2
  superClass := 0
  interfaces := []
  fields := []
  methods := []
  attributes := []

/-- The front of this class, with a constant that names slot 9 of two. -/
def danglingFront : Bytes := bareImage.layout.take 14 ++ [7, 0, 9]

/-- One byte after the class is too much, the constant that leads nowhere stays the cause whatever follows, and the class
without its last three bytes is cut off. -/
theorem parse_more_bytes_bareImage :
    parse bareImage.layout = .ok bareImage.classFile ∧ parse (bareImage.layout ++ [0]) = .error .extraBytes ∧
    parse (danglingFront ++ [0xff]) = .error (.badReference (.missing 9)) ∧
    ∃ e, parse (bareImage.layout.take 30) = .error e ∧ e.IsShortage := by
  have h : parse bareImage.layout = .ok bareImage.classFile := Outcome.toOption_eq_some.mp (by decide +kernel)
  have hd : parse danglingFront = .error (.badReference (.missing 9)) := by rfl
  have hl : bareImage.layout.take 30 ++ bareImage.layout.drop 30 = bareImage.layout := List.take_append_drop _ _
  refine ⟨h, (parse_more_bytes bareImage.layout [0] nofun).1 _ h,
    (parse_more_bytes danglingFront [0xff] nofun).2.2.1 _ hd nofun, ?_⟩
  exact (parse_more_bytes (bareImage.layout.take 30) (bareImage.layout.drop 30) (by decide +kernel)).2.2.2.2 _
    (hl.symm ▸ h)

end ClassFile
end JvmAccessors
