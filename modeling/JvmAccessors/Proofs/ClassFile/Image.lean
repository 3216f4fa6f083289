import JvmAccessors.Proofs.ClassFile.Entries
import JvmAccessors.Proofs.Outcome

/-!
# Class files and their bytes

A byte string is a class file exactly if it is the layout of an image that can be written and whose constants pass the
check, and there is only one such image (`ClassFile.parse_eq_ok_iff_layout`). What the parser hands out is what this
image means (`ClassImage.Means`).
-/

namespace JvmAccessors

open Reader

namespace ClassImage

/-- **An image that can be written**: each constant starts at a slot below the declared count, the slot after the last
one does not, and the lengths of all blocks and tables fit in the words before them. -/
structure WellFormed (s : ClassImage) : Prop where
  starts : ∀ before k after, s.constants = before ++ k :: after →
    1 + Constant.slotCount before < s.poolCount.toNat
  filled : s.poolCount.toNat ≤ 1 + Constant.slotCount s.constants
  constants : ∀ k ∈ s.constants, k.Fits
  interfaces : Countable (fun _ => True) s.interfaces
  fields : Countable Member.Fits s.fields
  methods : Countable Member.Fits s.methods
  attributes : Countable Attribute.Fits s.attributes

/-- **What an image means**: bits without a name are dropped from all flags, a super class zero is none, the declared
count is forgotten, and each `long` or `double` leaves the slot after it reserved. -/
structure Means (s : ClassImage) (c : ClassFile) : Prop where
  minor : c.minor = s.minor
  major : c.major = s.major
  slots : c.pool.slots.toList = s.constants.flatMap fun k =>
    if k.tag = .long ∨ k.tag = .double then [.constant k, .reserved] else [.constant k]
  flags : c.flags = s.flags &&& 0xf631
  thisClass : c.thisClass = s.thisClass
  superClass : s.superClass = 0 ∧ c.superClass = none ∨ s.superClass ≠ 0 ∧ c.superClass = some s.superClass
  interfaces : c.interfaces = s.interfaces
  fields : c.fields = s.fields.map fun m => { m with flags := m.flags &&& 0x50df }
  methods : c.methods = s.methods.map fun m => { m with flags := m.flags &&& 0x1dff }
  attributes : c.attributes = s.attributes

theorem mask_eq (holder : FlagHolder) : holder.mask = match holder with
    | .classFile => 0xf631
    | .field => 0x50df
    | .method => 0x1dff := by
  cases holder <;> rfl

theorem slots_eq (k : Constant) :
    k.slots = if k.tag = .long ∨ k.tag = .double then [.constant k, .reserved] else [.constant k] := by
  cases k <;> rfl

theorem means_classFile (s : ClassImage) : s.Means s.classFile := by
  refine ⟨rfl, rfl, ?_, ?_, rfl, ?_, rfl, rfl, rfl, rfl⟩
  · exact congrArg s.constants.flatMap (funext slots_eq)
  · exact congrArg (s.flags &&& ·) (mask_eq .classFile)
  · by_cases h : s.superClass = 0
    · exact .inl ⟨h, if_pos h⟩
    · exact .inr ⟨h, if_neg h⟩

/-- An image means one thing only. -/
theorem Means.eq {s : ClassImage} {c c' : ClassFile} (h : s.Means c) (h' : s.Means c') : c = c' := by
  have hp : c.pool = c'.pool := by
    have hs := Array.toList_inj.mp (h.slots.trans h'.slots.symm)
    exact congrArg Pool.mk hs
  have hs : c.superClass = c'.superClass := by
    rcases h.superClass with ⟨h0, hn⟩ | ⟨h0, hn⟩ <;> rcases h'.superClass with ⟨h0', hn'⟩ | ⟨h0', hn'⟩
    · rw [hn, hn']
    · exact absurd h0 h0'
    · exact absurd h0' h0
    · rw [hn, hn']
  cases c
  cases c'
  simp only [ClassFile.mk.injEq]
  exact ⟨h.minor.trans h'.minor.symm, h.major.trans h'.major.symm, hp, h.flags.trans h'.flags.symm,
    h.thisClass.trans h'.thisClass.symm, hs, h.interfaces.trans h'.interfaces.symm, h.fields.trans h'.fields.symm,
    h.methods.trans h'.methods.symm, h.attributes.trans h'.attributes.symm⟩

theorem means_iff {s : ClassImage} {c : ClassFile} : s.Means c ↔ c = s.classFile := by
  constructor
  · exact fun h => h.eq s.means_classFile
  · rintro rfl
    exact s.means_classFile

/-! ## Reading an image -/

theorem fills_iff {n : Nat} {ks : List Constant} : Constant.Fills (n - 1) ks ↔
    (∀ before k after, ks = before ++ k :: after → 1 + Constant.slotCount before < n) ∧
      n ≤ 1 + Constant.slotCount ks := by
  have hlt (m : Nat) : m < n - 1 ↔ 1 + m < n := by omega
  have hle (m : Nat) : n - 1 ≤ m ↔ n ≤ 1 + m := by omega
  simp only [Constant.Fills, hlt, hle]

theorem readHeader_eq_ok {b rest : Bytes} {minor major poolCount : UInt16} :
    readHeader b = .ok ((minor, major, poolCount), rest) ↔
      b = Layout.u32 magic ++ (Layout.u16 minor ++ (Layout.u16 major ++ (Layout.u16 poolCount ++ rest))) := by
  rw [readHeader, bind_eq_ok]
  simp only [liftM_reader_eq_ok, u32_eq_ok]
  constructor
  · rintro ⟨value, _, rfl, h⟩
    by_cases hm : value = magic
    case neg =>
      rw [if_pos hm] at h
      obtain ⟨_, _, ht, -⟩ := bind_eq_ok.mp h
      cases ht
    rw [if_neg fun hn => hn hm] at h
    subst hm
    simp only [bind_eq_ok, liftM_reader_eq_ok, u16_eq_ok, pure_eq_ok] at h
    obtain ⟨_, _, rfl, _, _, rfl, _, _, rfl, hp, rfl⟩ := h
    cases hp
    rfl
  · rintro rfl
    refine ⟨magic, _, rfl, ?_⟩
    rw [if_neg fun h => h rfl]
    simp only [bind_eq_ok, liftM_reader_eq_ok, u16_eq_ok]
    exact ⟨minor, _, rfl, major, _, rfl, poolCount, _, rfl, rfl⟩

theorem checkPool_eq_ok {ks : List Constant} {u : Unit} :
    checkPool ks = .ok u ↔ (Pool.ofConstants ks).check = .ok () :=
  Outcome.mapError_eq_ok

/-- What an image has after its constants. -/
def body (s : ClassImage) : Bytes :=
  Layout.u16 s.flags ++ (Layout.u16 s.thisClass ++ (Layout.u16 s.superClass ++ (Layout.table Layout.u16 s.interfaces ++
    (Layout.table Member.layout s.fields ++ (Layout.table Member.layout s.methods ++
      Layout.table Attribute.layout s.attributes)))))

theorem layout_eq (s : ClassImage) : s.layout = Layout.u32 magic ++ (Layout.u16 s.minor ++ (Layout.u16 s.major ++
    (Layout.u16 s.poolCount ++ (s.constants.flatMap Constant.layout ++ s.body)))) := by
  simp only [layout, body, List.append_assoc]

theorem readBody_eq_ok {b rest : Bytes} {minor major poolCount : UInt16} {ks : List Constant} {s : ClassImage} :
    readBody minor major poolCount ks b = .ok (s, rest) ↔
      (s.minor = minor ∧ s.major = major ∧ s.poolCount = poolCount ∧ s.constants = ks) ∧
      Countable (fun _ => True) s.interfaces ∧ Countable Member.Fits s.fields ∧ Countable Member.Fits s.methods ∧
      Countable Attribute.Fits s.attributes ∧ b = s.body ++ rest := by
  constructor
  · intro h
    obtain ⟨flags, _, rfl, h1⟩ := u16_bind_eq_ok.mp h
    obtain ⟨thisClass, _, rfl, h2⟩ := u16_bind_eq_ok.mp h1
    obtain ⟨superClass, _, rfl, h3⟩ := u16_bind_eq_ok.mp h2
    obtain ⟨interfaces, _, hi, rfl, h4⟩ := (table_bind_eq_ok exact_u16).mp h3
    obtain ⟨fields, _, hf, rfl, h5⟩ := (table_bind_eq_ok Member.exact_read).mp h4
    obtain ⟨methods, _, hm, rfl, h6⟩ := (table_bind_eq_ok Member.exact_read).mp h5
    obtain ⟨attributes, _, ht, h7⟩ := bind_eq_ok.mp h6
    obtain ⟨ha, rfl⟩ := (Attribute.exact_readTable _ _ _).mp ht
    obtain ⟨rfl, rfl⟩ := pure_eq_ok.mp h7
    exact ⟨⟨rfl, rfl, rfl, rfl⟩, hi, hf, hm, ha, by simp only [body, List.append_assoc]⟩
  · rintro ⟨⟨rfl, rfl, rfl, rfl⟩, hi, hf, hm, ha, rfl⟩
    simp only [body, List.append_assoc]
    refine u16_bind_eq_ok.mpr ⟨s.flags, _, rfl, u16_bind_eq_ok.mpr ⟨s.thisClass, _, rfl, ?_⟩⟩
    refine u16_bind_eq_ok.mpr ⟨s.superClass, _, rfl, (table_bind_eq_ok exact_u16).mpr ⟨s.interfaces, _, hi, rfl, ?_⟩⟩
    refine (table_bind_eq_ok Member.exact_read).mpr ⟨s.fields, _, hf, rfl, ?_⟩
    refine (table_bind_eq_ok Member.exact_read).mpr ⟨s.methods, _, hm, rfl, ?_⟩
    exact bind_eq_ok.mpr ⟨s.attributes, rest, (Attribute.exact_readTable _ _ _).mpr ⟨ha, rfl⟩, rfl⟩

theorem readRest_eq_ok {b rest : Bytes} {minor major poolCount : UInt16} {ks : List Constant} {s : ClassImage} :
    readRest minor major poolCount ks b = .ok (s, rest) ↔
      (Pool.ofConstants ks).check = .ok () ∧ readBody minor major poolCount ks b = .ok (s, rest) := by
  simp only [readRest, bind_eq_ok, liftM_except_eq_ok, liftM_reader_eq_ok, checkPool_eq_ok]
  constructor
  · rintro ⟨_, _, ⟨hc, rfl⟩, h⟩
    exact ⟨hc, h⟩
  · rintro ⟨hc, h⟩
    exact ⟨(), b, ⟨hc, rfl⟩, h⟩

/-- An image is read exactly if it can be written and its constants pass the check. -/
theorem exact_read : Exact ClassImage.read layout
    fun s => s.WellFormed ∧ (Pool.ofConstants s.constants).check = .ok () := by
  intro b s rest
  simp only [ClassImage.read, bind_eq_ok, layout_eq]
  constructor
  · rintro ⟨⟨minor, major, poolCount⟩, _, hh, ks, _, hr, hb⟩
    obtain rfl := readHeader_eq_ok.mp hh
    obtain ⟨⟨hfill, hk⟩, rfl⟩ := (Constant.exact_readInto _ _ _ _).mp hr
    obtain ⟨hc, hb⟩ := readRest_eq_ok.mp hb
    obtain ⟨⟨rfl, rfl, rfl, rfl⟩, hi, hf, hm, ha, rfl⟩ := readBody_eq_ok.mp hb
    obtain ⟨hstarts, hfilled⟩ := fills_iff.mp hfill
    exact ⟨⟨⟨hstarts, hfilled, hk, hi, hf, hm, ha⟩, hc⟩, by simp only [List.append_assoc]⟩
  · rintro ⟨⟨⟨hstarts, hfilled, hk, hi, hf, hm, ha⟩, hc⟩, rfl⟩
    simp only [List.append_assoc]
    refine ⟨(s.minor, s.major, s.poolCount), _, readHeader_eq_ok.mpr rfl, s.constants, s.body ++ rest, ?_, ?_⟩
    · exact (Constant.exact_readInto _ _ _ _).mpr ⟨⟨fills_iff.mpr ⟨hstarts, hfilled⟩, hk⟩, rfl⟩
    · exact readRest_eq_ok.mpr ⟨hc, readBody_eq_ok.mpr ⟨⟨rfl, rfl, rfl, rfl⟩, hi, hf, hm, ha, rfl⟩⟩

end ClassImage

namespace ClassFile

theorem parse_eq_ok {b : Bytes} {c : ClassFile} :
    parse b = .ok c ↔ ∃ s, ClassImage.read b = .ok (s, []) ∧ s.Means c := by
  unfold parse ofReading
  simp only [ClassImage.means_iff]
  split
  · rename_i h
    simp [h]
  · rename_i image h
    simp [h, eq_comm]
  · rename_i h
    simp [h]

/-- **Parsing is exact.** A byte string is a class file exactly if it is the layout of an image that can be written and
whose constants pass the check; the class file is what the image means, and no other such image has that layout. -/
theorem parse_eq_ok_iff_layout (b : Bytes) :
    (∀ c, parse b = .ok c ↔ ∃ s : ClassImage, s.WellFormed ∧ (Pool.ofConstants s.constants).check = .ok () ∧
      b = s.layout ∧ s.Means c) ∧
    ∀ s s' : ClassImage, s.WellFormed ∧ (Pool.ofConstants s.constants).check = .ok () ∧ b = s.layout →
      s'.WellFormed ∧ (Pool.ofConstants s'.constants).check = .ok () ∧ b = s'.layout → s = s' := by
  have hr (s : ClassImage) : ClassImage.read b = .ok (s, []) ↔
      s.WellFormed ∧ (Pool.ofConstants s.constants).check = .ok () ∧ b = s.layout := by
    rw [ClassImage.exact_read, List.append_nil, and_assoc]
  constructor
  · intro c
    simp only [parse_eq_ok, hr, and_assoc]
  · intro s s' h h'
    cases ((hr s).mpr h).symm.trans ((hr s').mpr h')
    rfl

end ClassFile
end JvmAccessors
