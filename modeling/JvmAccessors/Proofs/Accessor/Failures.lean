import JvmAccessors.Proofs.Access.Signature
import JvmAccessors.Proofs.Accessor.Qualification

/-!
# Classes whose accessors cannot be told

`Member.IsFaulty` lists what can be wrong with a method, in any order, and `Member.Fails` gives the reason for which it
fails: of several faults the one that stands first on the way from its name to the type of the field that it uses. A
method is faulty exactly if it fails (`Member.isFaulty_iff_fails`).

The judgement on a method fails just for that reason (`Verdict.ofMember_eq_error_iff`), and judging methods in turn
fails where the first judgement does (`AccessorMap.collect_eq_error_iff`). Main statement: a class has no map exactly if
it has no name or one of its methods is faulty, and the reason is that of the first of these
(`AccessorMap.build_error_exact`).
-/

namespace JvmAccessors

/-! ## What can be wrong with a method -/

namespace Member

section Reasons

variable (p : Pool) (start : String) (m : Member)

/-- The name of a method leads to bytes that start right; they need not be a text. -/
def IsCandidate : Prop := ∃ bytes, p.utf8At m.name = .ok bytes ∧ ModifiedUtf8.encode start <+: bytes

/-- What can be wrong with a method: its name leads to no bytes; or it is a candidate, and its name is no text, or it
has a body and its code cannot be had, or it has code and its descriptor is no text, its accesses cannot be told, or the
type of the field of its one access is no field descriptor. -/
def IsFaulty : Prop :=
  (¬ ∃ bytes, p.Holds m.name (.utf8 bytes)) ∨
  m.IsCandidate p start ∧
    ((¬ ∃ name, p.text m.name = .ok name) ∨
     Flags.hasBody m.flags = true ∧
      ((∃ e, Attribute.findCode p m.attributes = .error e) ∨
       ∃ code, Attribute.HoldsCode p m.attributes code ∧
        ((¬ ∃ descriptor, p.text m.descriptor = .ok descriptor) ∨
         (∃ e, scan p code.bytecode = .error e) ∨
         ∃ access, Scan.OnlyAccess p code.bytecode access ∧ ¬ FieldDescriptor access.field.type.toList)))

/-- The name of a method is a text that starts right. -/
def IsNamed : Prop := ∃ name, p.text m.name = .ok name ∧ start.toList <+: name.toList

/-- The code of a method is looked at: its name starts right, it has a body, and this is its code. -/
structure IsExamined (code : Code) : Prop where
  named : m.IsNamed p start
  hasBody : Flags.hasBody m.flags = true
  code : Attribute.HoldsCode p m.attributes code

/-- **Why a method fails.** -/
inductive Fails : BuildError → Prop
  /-- It cannot be told whether the method is a candidate. -/
  | methodName {e : LookupError} : p.utf8At m.name = .error e → Fails (.methodName e)
  | name {e : TextError} : m.IsCandidate p start → p.text m.name = .error e → Fails (.text e)
  | code {e : CodeError} : m.IsNamed p start → Flags.hasBody m.flags = true →
      Attribute.findCode p m.attributes = .error e → Fails (.code e)
  | descriptor {code : Code} {e : TextError} : m.IsExamined p start code → p.text m.descriptor = .error e →
      Fails (.text e)
  | scan {code : Code} {descriptor : String} {e : ScanError} : m.IsExamined p start code →
      p.text m.descriptor = .ok descriptor → scan p code.bytecode = .error e → Fails (.scan e)
  | fieldType {code : Code} {descriptor : String} {access : FieldAccess} {e : DescriptorError} :
      m.IsExamined p start code → p.text m.descriptor = .ok descriptor → Scan.OnlyAccess p code.bytecode access →
      FieldType.parse access.field.type = .error e → Fails (.fieldType e)

end Reasons

variable {p : Pool} {start : String} {m : Member}

/-- Of a candidate whose name is a text it is the text that starts right. -/
theorem isNamed_iff : m.IsNamed p start ↔ m.IsCandidate p start ∧ ∃ name, p.text m.name = .ok name := by
  constructor
  · rintro ⟨name, hn, hs⟩
    obtain ⟨bytes, hb, hd⟩ := Pool.text_eq_ok.mp hn
    exact ⟨⟨bytes, hb, List.isPrefixOf_iff_prefix.mp ((ModifiedUtf8.isPrefixOf_encode_iff hd).mpr hs)⟩, name, hn⟩
  · rintro ⟨⟨bytes, hb, hs⟩, name, hn⟩
    obtain ⟨bytes', hb', hd⟩ := Pool.text_eq_ok.mp hn
    cases hb.symm.trans hb'
    exact ⟨name, hn, (ModifiedUtf8.isPrefixOf_encode_iff hd).mp (List.isPrefixOf_iff_prefix.mpr hs)⟩

/-- A faulty method fails: what stands before a fault is another fault or leads to it. -/
theorem exists_fails_of_isFaulty (h : m.IsFaulty p start) : ∃ e, m.Fails p start e := by
  obtain hu | ⟨hc, h⟩ := h
  · simp only [← Pool.utf8At_eq_ok] at hu
    obtain ⟨e, he⟩ := Outcome.exists_error_iff.mpr hu
    exact ⟨_, .methodName he⟩
  cases hn : p.text m.name with
  | error e => exact ⟨_, .name hc hn⟩
  | ok name =>
    have hnamed : m.IsNamed p start := isNamed_iff.mpr ⟨hc, name, hn⟩
    obtain ⟨hb, ⟨e, hf⟩ | ⟨code, hcode, h⟩⟩ := h.resolve_left (not_not_intro ⟨name, hn⟩)
    · exact ⟨_, .code hnamed hb hf⟩
    have hx : m.IsExamined p start code := ⟨hnamed, hb, hcode⟩
    cases hd : p.text m.descriptor with
    | error e => exact ⟨_, .descriptor hx hd⟩
    | ok descriptor =>
      obtain ⟨e, hs⟩ | ⟨access, ha, ht⟩ := h.resolve_left (not_not_intro ⟨descriptor, hd⟩)
      · exact ⟨_, .scan hx hd hs⟩
      · obtain ⟨e, he⟩ := Outcome.exists_error_iff.mpr (mt FieldType.exists_parse_iff.mp ht)
        exact ⟨_, .fieldType hx hd ha he⟩

/-- What is wrong with the code of a method is wrong with the method. -/
theorem IsExamined.isFaulty {code : Code} (hx : m.IsExamined p start code)
    (h : (¬ ∃ descriptor, p.text m.descriptor = .ok descriptor) ∨ (∃ e, JvmAccessors.scan p code.bytecode = .error e) ∨
      ∃ access, Scan.OnlyAccess p code.bytecode access ∧ ¬ FieldDescriptor access.field.type.toList) :
    m.IsFaulty p start :=
  .inr ⟨(isNamed_iff.mp hx.named).1, .inr ⟨hx.hasBody, .inr ⟨code, hx.code, h⟩⟩⟩

/-- A method is faulty exactly if it fails. -/
theorem isFaulty_iff_fails : m.IsFaulty p start ↔ ∃ e, m.Fails p start e := by
  refine ⟨exists_fails_of_isFaulty, ?_⟩
  rintro ⟨e, h⟩
  cases h with
  | methodName hu =>
    have hnone := Outcome.exists_error_iff.mp ⟨_, hu⟩
    simp only [Pool.utf8At_eq_ok] at hnone
    exact .inl hnone
  | name hc hn => exact .inr ⟨hc, .inl (Outcome.exists_error_iff.mp ⟨_, hn⟩)⟩
  | code hnamed hb hf => exact .inr ⟨(isNamed_iff.mp hnamed).1, .inr ⟨hb, .inl ⟨_, hf⟩⟩⟩
  | descriptor hx hd => exact hx.isFaulty (.inl (Outcome.exists_error_iff.mp ⟨_, hd⟩))
  | scan hx _ hs => exact hx.isFaulty (.inr (.inl ⟨_, hs⟩))
  | fieldType hx _ ha ht =>
    have hnone := Outcome.exists_error_iff.mp ⟨_, ht⟩
    exact hx.isFaulty (.inr (.inr ⟨_, ha, mt FieldType.exists_parse_iff.mpr hnone⟩))

/-- With a method without a body nothing is wrong once its name is a text. -/
theorem not_isFaulty_of_hasBody_eq_false {name : String} (hn : p.text m.name = .ok name)
    (hb : Flags.hasBody m.flags = false) : ¬ m.IsFaulty p start := by
  rintro (h | ⟨-, h | ⟨hb', -⟩⟩)
  · obtain ⟨bytes, hbytes, -⟩ := Pool.text_eq_ok.mp hn
    exact h ⟨bytes, Pool.utf8At_eq_ok.mp hbytes⟩
  · exact h ⟨name, hn⟩
  · cases hb.symm.trans hb'

end Member

/-! ## Judgements -/

namespace Verdict

open Outcome

variable {c : ClassFile} {className start : String} {m : Member} {e : BuildError}

/-- The judgement on a method with code fails at its descriptor, in the scan of its code or at the type of the field, in
this order. -/
theorem ofCode_eq_error_iff {name : String} {code : Code} : ofCode c className name m code = .error e ↔
    (∃ cause, c.pool.text m.descriptor = .error cause ∧ .text cause = e) ∨
    ∃ descriptor, c.pool.text m.descriptor = .ok descriptor ∧
      ((∃ cause, scan c.pool code.bytecode = .error cause ∧ .scan cause = e) ∨
       ∃ access, Scan.OnlyAccess c.pool code.bytecode access ∧
        ∃ cause, FieldType.parse access.field.type = .error cause ∧ .fieldType cause = e) := by
  simp only [ofCode, bind_eq_error, mapError_eq_error, mapError_eq_ok]
  refine or_congr_right (exists_congr fun descriptor => and_congr_right fun _ => or_congr_right ⟨?_, ?_⟩)
  · rintro ⟨found, hf, h⟩
    cases found with
    | none => cases h
    | some access =>
      rcases bind_eq_error.mp h with h | ⟨fits, -, h⟩
      · obtain ⟨cause, hc, rfl⟩ := mapError_eq_error.mp h
        exact ⟨access, scan_eq_some_iff_onlyAccess.mp hf, cause, FieldAccess.fits_eq_error_iff.mp hc, rfl⟩
      · cases fits <;> cases h
  · rintro ⟨access, ha, cause, hc, rfl⟩
    refine ⟨some access, scan_eq_some_iff_onlyAccess.mpr ha, bind_eq_error.mpr (.inl ?_)⟩
    exact mapError_eq_error.mpr ⟨cause, FieldAccess.fits_eq_error_iff.mpr hc, rfl⟩

/-- The judgement on a candidate fails at its name, in the search for its code or at its code, in this order. -/
theorem ofCandidate_eq_error_iff : ofCandidate c className m = .error e ↔
    (∃ cause, c.pool.text m.name = .error cause ∧ .text cause = e) ∨
    ∃ name, c.pool.text m.name = .ok name ∧ Flags.hasBody m.flags = true ∧
      ((∃ cause, Attribute.findCode c.pool m.attributes = .error cause ∧ .code cause = e) ∨
       ∃ code, Attribute.HoldsCode c.pool m.attributes code ∧ ofCode c className name m code = .error e) := by
  simp only [ofCandidate, bind_eq_error, mapError_eq_error, mapError_eq_ok]
  refine or_congr_right (exists_congr fun name => and_congr_right fun _ => ?_)
  cases hb : Flags.hasBody m.flags with
  | false =>
    constructor
    · intro h
      cases h
    · rintro ⟨h, -⟩
      cases h
  | true =>
    rw [if_pos rfl, bind_eq_error, mapError_eq_error, and_iff_right rfl]
    refine or_congr_right ⟨?_, ?_⟩
    · rintro ⟨found, hf, h⟩
      cases found with
      | none => cases h
      | some code => exact ⟨code, Attribute.findCode_eq_some_iff.mp (mapError_eq_ok.mp hf), h⟩
    · rintro ⟨code, hc, h⟩
      exact ⟨some code, mapError_eq_ok.mpr (Attribute.findCode_eq_some_iff.mpr hc), h⟩

/-- The judgement on a method fails at the lookup of its name, or because it is a candidate on which it fails. -/
theorem ofMember_eq_error_iff_isCandidate : ofMember c className (ModifiedUtf8.encode start) m = .error e ↔
    (∃ cause, c.pool.utf8At m.name = .error cause ∧ .methodName cause = e) ∨
    m.IsCandidate c.pool start ∧ ofCandidate c className m = .error e := by
  simp only [ofMember, bind_eq_error, mapError_eq_error, mapError_eq_ok]
  refine or_congr_right ⟨?_, ?_⟩
  · rintro ⟨bytes, hb, h⟩
    split at h
    · rename_i hs
      exact ⟨⟨bytes, hb, List.isPrefixOf_iff_prefix.mp hs⟩, h⟩
    · cases h
  · rintro ⟨⟨bytes, hb, hs⟩, h⟩
    refine ⟨bytes, hb, ?_⟩
    rw [if_pos (List.isPrefixOf_iff_prefix.mpr hs)]
    exact h

/-- If the code of a method is looked at, the judgement on the method fails if that on its code does. -/
theorem ofMember_eq_error_of_isExamined {code : Code} (hx : m.IsExamined c.pool start code)
    (h : ∀ name, ofCode c className name m code = .error e) :
    ofMember c className (ModifiedUtf8.encode start) m = .error e := by
  obtain ⟨hc, name, hn⟩ := Member.isNamed_iff.mp hx.named
  exact ofMember_eq_error_iff_isCandidate.mpr (.inr ⟨hc, ofCandidate_eq_error_iff.mpr
    (.inr ⟨name, hn, hx.hasBody, .inr ⟨code, hx.code, h name⟩⟩)⟩)

theorem ofMember_eq_error_of_fails (h : m.Fails c.pool start e) :
    ofMember c className (ModifiedUtf8.encode start) m = .error e := by
  cases h with
  | methodName hn => exact ofMember_eq_error_iff_isCandidate.mpr (.inl ⟨_, hn, rfl⟩)
  | name hc hn =>
    have h : ofCandidate c className m = _ := ofCandidate_eq_error_iff.mpr (.inl ⟨_, hn, rfl⟩)
    exact ofMember_eq_error_iff_isCandidate.mpr (.inr ⟨hc, h⟩)
  | code hnamed hb hf =>
    obtain ⟨hc, name, hn⟩ := Member.isNamed_iff.mp hnamed
    have h : ofCandidate c className m = _ := ofCandidate_eq_error_iff.mpr (.inr ⟨name, hn, hb, .inl ⟨_, hf, rfl⟩⟩)
    exact ofMember_eq_error_iff_isCandidate.mpr (.inr ⟨hc, h⟩)
  | descriptor hx hd =>
    exact ofMember_eq_error_of_isExamined hx fun _ => ofCode_eq_error_iff.mpr (.inl ⟨_, hd, rfl⟩)
  | scan hx hd hs =>
    exact ofMember_eq_error_of_isExamined hx fun _ => ofCode_eq_error_iff.mpr (.inr ⟨_, hd, .inl ⟨_, hs, rfl⟩⟩)
  | fieldType hx hd ha ht =>
    exact ofMember_eq_error_of_isExamined hx fun _ =>
      ofCode_eq_error_iff.mpr (.inr ⟨_, hd, .inr ⟨_, ha, _, ht, rfl⟩⟩)

/-- **A judgement fails just for the reason for which the method does.** -/
theorem ofMember_eq_error_iff :
    ofMember c className (ModifiedUtf8.encode start) m = .error e ↔ m.Fails c.pool start e := by
  refine ⟨fun h => ?_, ofMember_eq_error_of_fails⟩
  obtain ⟨cause, hn, rfl⟩ | ⟨hc, h⟩ := ofMember_eq_error_iff_isCandidate.mp h
  · exact .methodName hn
  obtain ⟨cause, hn, rfl⟩ | ⟨name, hn, hb, h⟩ := ofCandidate_eq_error_iff.mp h
  · exact .name hc hn
  have hnamed : m.IsNamed c.pool start := Member.isNamed_iff.mpr ⟨hc, name, hn⟩
  obtain ⟨cause, hf, rfl⟩ | ⟨code, hcode, h⟩ := h
  · exact .code hnamed hb hf
  have hx : m.IsExamined c.pool start code := ⟨hnamed, hb, hcode⟩
  obtain ⟨cause, hd, rfl⟩ | ⟨descriptor, hd, ⟨cause, hs, rfl⟩ | ⟨access, ha, cause, ht, rfl⟩⟩ :=
    ofCode_eq_error_iff.mp h
  · exact .descriptor hx hd
  · exact .scan hx hd hs
  · exact .fieldType hx hd ha ht

/-- A method can be judged exactly if nothing is wrong with it. -/
theorem exists_ofMember_iff :
    (∃ v, ofMember c className (ModifiedUtf8.encode start) m = .ok v) ↔ ¬ m.IsFaulty c.pool start := by
  simp only [Member.isFaulty_iff_fails, ← @ofMember_eq_error_iff c className start m]
  rw [exists_error_iff, Classical.not_not]

theorem fails_unique {e' : BuildError} (h : m.Fails c.pool start e) (h' : m.Fails c.pool start e') : e = e' := by
  have hj : ofMember c "" (ModifiedUtf8.encode start) m = .error e := ofMember_eq_error_iff.mpr h
  have hj' : ofMember c "" (ModifiedUtf8.encode start) m = .error e' := ofMember_eq_error_iff.mpr h'
  exact Except.error.inj (hj.symm.trans hj')

end Verdict

/-! ## Judging in turn -/

namespace AccessorMap

open Verdict

/-- Judging methods in turn fails where the first judgement does. -/
theorem collect_eq_error_iff {className : String} {judge : Member → Except BuildError Verdict} {e : BuildError}
    {methods : List Member} {m : AccessorMap} : (collect className judge m methods).outcome = .error e ↔
      ∃ before method after, methods = before ++ method :: after ∧ (∀ b ∈ before, ∃ v, judge b = .ok v) ∧
        judge method = .error e := by
  induction methods generalizing m with
  | nil => simp [collect, Traced.ofExcept]
  | cons method methods ih =>
    rw [collect]
    cases hj : judge method with
    | error e' =>
      show Except.error e' = .error e ↔ _
      constructor
      · intro he
        cases he
        exact ⟨[], method, methods, rfl, by simp, hj⟩
      · rintro ⟨_ | ⟨b, before⟩, culprit, after, hm, hb, he⟩ <;> cases hm
        · cases hj.symm.trans he
          rfl
        · obtain ⟨v, hv⟩ := hb method List.mem_cons_self
          cases hj.symm.trans hv
    | ok v =>
      refine ih.trans ?_
      constructor
      · rintro ⟨before, culprit, after, rfl, hb, he⟩
        exact ⟨method :: before, culprit, after, rfl, List.forall_mem_cons.mpr ⟨⟨v, hj⟩, hb⟩, he⟩
      · rintro ⟨_ | ⟨b, before⟩, culprit, after, hm, hb, he⟩ <;> cases hm
        · cases hj.symm.trans he
        · exact ⟨before, culprit, after, rfl, (List.forall_mem_cons.mp hb).2, he⟩

/-- A class has no map if it has no name, or else for the reason for which the first faulty method fails. -/
theorem build_eq_error_iff {c : ClassFile} {start : String} {e : BuildError} : (build c start).outcome = .error e ↔
    (∃ cause, c.name = .error cause ∧ e = .className cause) ∨
    (∃ className, c.name = .ok className) ∧ ∃ before m after, c.methods = before ++ m :: after ∧
      (∀ b ∈ before, ¬ b.IsFaulty c.pool start) ∧ m.Fails c.pool start e := by
  unfold build
  cases hn : c.name with
  | error cause => simp [Traced.ofExcept, eq_comm]
  | ok className => simp [Outcome.andThen_eq_error, collect_eq_error_iff, exists_ofMember_iff, ofMember_eq_error_iff]

/-- A class has no map exactly if it has no name or one of its methods is faulty. -/
theorem exists_build_error_iff {c : ClassFile} {start : String} : (∃ e, (build c start).outcome = .error e) ↔
    (∃ cause, c.name = .error cause) ∨ ∃ m ∈ c.methods, m.IsFaulty c.pool start := by
  constructor
  · rintro ⟨e, h⟩
    obtain ⟨cause, hn, -⟩ | ⟨-, before, m, after, hm, -, hf⟩ := build_eq_error_iff.mp h
    · exact .inl ⟨cause, hn⟩
    · exact .inr ⟨m, by simp [hm], Member.isFaulty_iff_fails.mpr ⟨e, hf⟩⟩
  · intro h
    rw [Outcome.exists_error_iff]
    rintro ⟨map, hmap⟩
    obtain ⟨className, hn, hall, -⟩ := build_eq_ok_iff.mp hmap
    obtain ⟨cause, hc⟩ | ⟨m, hm, hf⟩ := h
    · cases hn.symm.trans hc
    · exact exists_ofMember_iff.mp (hall m hm) hf

/-- **Why a class has no map.** It has none exactly if it has no name, or one of its methods is faulty. The reason is
that for which it has no name, if so, and otherwise the one reason for which the first faulty method fails, whatever the
methods before it are accepted for and whatever those after it are. A method that is abstract or native is not faulty
once its name is a text. -/
theorem build_error_exact (c : ClassFile) (start : String) :
    ((∃ e, (build c start).outcome = .error e) ↔
      (∃ cause, c.name = .error cause) ∨ ∃ m ∈ c.methods, m.IsFaulty c.pool start) ∧
    (∀ e, (build c start).outcome = .error e ↔
      (∃ cause, c.name = .error cause ∧ e = .className cause) ∨
      (∃ className, c.name = .ok className) ∧ ∃ before m after, c.methods = before ++ m :: after ∧
        (∀ b ∈ before, ¬ b.IsFaulty c.pool start) ∧ m.Fails c.pool start e) ∧
    (∀ m : Member, (m.IsFaulty c.pool start ↔ ∃ e, m.Fails c.pool start e) ∧
      ∀ e e', m.Fails c.pool start e → m.Fails c.pool start e' → e = e') ∧
    ∀ (m : Member) name, c.pool.text m.name = .ok name → m.flags &&& 0x0400 ≠ 0 ∨ m.flags &&& 0x0100 ≠ 0 →
      ¬ m.IsFaulty c.pool start := by
  refine ⟨exists_build_error_iff, fun _ => build_eq_error_iff,
    fun m => ⟨Member.isFaulty_iff_fails, fun _ _ => fails_unique⟩, fun m name hn hf => ?_⟩
  apply Member.not_isFaulty_of_hasBody_eq_false hn
  rw [← Bool.not_eq_true, Flags.hasBody_iff]
  rintro ⟨ha, hnative⟩
  exact hf.elim (absurd ha) (absurd hnative)

/-- A method whose descriptor is no text and whose code cannot be read. -/
def unreadableMethod : Member := ⟨0x1008, 3, 2, [⟨5, Code.layout ⟨1, 1, [0xcb], [], []⟩⟩]⟩

/-- A class with an accessor, an abstract method that has neither a descriptor nor attributes that can be had, a method
that cannot be read, and a method without a name. -/
def unreadableClass : ClassFile :=
  { overloadedClass with methods := overloadedClass.methods.take 1 ++
      [⟨0x0400, 3, 99, [⟨99, []⟩]⟩, unreadableMethod, ⟨0x1008, 99, 4, []⟩] }

/-- The class has no map because of the descriptor of the method that cannot be read. -/
theorem build_unreadableClass : (build unreadableClass "access$").outcome =
    .error (.text (.lookup (.wrongKind .utf8 (.constant (.classRef 1)) 2))) := by
  obtain ⟨-, herror, -, hnoBody⟩ := build_error_exact unreadableClass "access$"
  have hname : unreadableClass.name = .ok "O" := Outcome.toOption_eq_some.mp (by decide +kernel)
  have htext : unreadableClass.pool.text 3 = .ok "access$0" := Outcome.toOption_eq_some.mp (by decide +kernel)
  have haccepted : Verdict.ofMember unreadableClass "O" (ModifiedUtf8.encode "access$") overloadedClass.methods[0] =
      .ok (.accepted readerOfX) := Outcome.toOption_eq_some.mp (by decide +kernel)
  have hcode : Attribute.HoldsCode unreadableClass.pool unreadableMethod.attributes ⟨1, 1, [0xcb], [], []⟩ :=
    Attribute.findCode_eq_some_iff.mp (Outcome.toOption_eq_some.mp (by decide +kernel))
  refine (herror _).mpr (.inr ⟨⟨"O", hname⟩, overloadedClass.methods.take 1 ++ [⟨0x0400, 3, 99, [⟨99, []⟩]⟩],
    unreadableMethod, [⟨0x1008, 99, 4, []⟩], rfl, ?_, .descriptor ⟨⟨"access$0", htext, by decide⟩, rfl, hcode⟩ rfl⟩)
  intro b hb
  obtain rfl | rfl : b = overloadedClass.methods[0] ∨ b = ⟨0x0400, 3, 99, [⟨99, []⟩]⟩ := by
    simpa [overloadedClass] using hb
  · exact exists_ofMember_iff.mp ⟨_, haccepted⟩
  · exact hnoBody _ _ htext (.inl (by decide))

end AccessorMap
end JvmAccessors
