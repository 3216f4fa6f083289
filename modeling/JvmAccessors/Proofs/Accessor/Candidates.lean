import JvmAccessors.Accessor.Build
import JvmAccessors.ClassFile.Layout
import JvmAccessors.Proofs.Outcome

/-!
# What a map does not depend on

The name of every method is compared with the start of an accessor's name, and of a method whose name starts otherwise
nothing else is read (`Member.isRead`). Judging methods in turn comes to the same without those
(`AccessorMap.collect_filter`), so two classes that agree in their pool, their name and the methods that are read have
the same map, or fail for the same reason, after the same events (`AccessorMap.build_congr`). Main statement: no change
to another method, and none to what a class says about itself apart from its name, has any influence
(`AccessorMap.build_unaffected`).
-/

namespace JvmAccessors

/-- Whether more of a method is read than its name: its name starts right, or leads to no text. -/
def Member.isRead (p : Pool) (start : String) (m : Member) : Bool :=
  match p.utf8At m.name with
  | .ok bytes => (ModifiedUtf8.encode start).isPrefixOf bytes
  | .error _ => true

/-- A method that is not read has a name of other bytes; they need not be a text. -/
theorem Member.isRead_eq_false_iff {p : Pool} {start : String} {m : Member} : m.isRead p start = false ↔
    ∃ bytes, p.utf8At m.name = .ok bytes ∧ ¬ ModifiedUtf8.encode start <+: bytes := by
  unfold isRead
  cases hn : p.utf8At m.name with
  | error e => simp
  | ok bytes => simp [← List.isPrefixOf_iff_prefix]

/-! ## Judgements read the pool alone -/

namespace Verdict

variable {c c' : ClassFile}

theorem ofCode_congr (h : c'.pool = c.pool) (className : String) : ofCode c' className = ofCode c className := by
  funext name m code
  rw [ofCode, ofCode, h]

theorem ofCandidate_congr (h : c'.pool = c.pool) (className : String) :
    ofCandidate c' className = ofCandidate c className := by
  funext m
  rw [ofCandidate, ofCandidate, h, ofCode_congr h className]

theorem ofMember_congr (h : c'.pool = c.pool) (className : String) (start : Bytes) :
    ofMember c' className start = ofMember c className start := by
  funext m
  rw [ofMember, ofMember, h, ofCandidate_congr h className]

/-- A method that is not read is passed over. -/
theorem ofMember_of_isRead_eq_false (className : String) {start : String} {m : Member}
    (hm : m.isRead c.pool start = false) :
    ofMember c className (ModifiedUtf8.encode start) m = .ok .ignored := by
  obtain ⟨bytes, hn, hs⟩ := Member.isRead_eq_false_iff.mp hm
  have hp : (ModifiedUtf8.encode start).isPrefixOf bytes = false := by
    rw [← Bool.not_eq_true, List.isPrefixOf_iff_prefix]
    exact hs
  have hb : ((c.pool.utf8At m.name).mapError BuildError.methodName) = .ok bytes := Outcome.mapError_eq_ok.mpr hn
  refine Outcome.bind_eq_ok.mpr ⟨bytes, hb, ?_⟩
  rw [hp]
  rfl

end Verdict

namespace AccessorMap

/-! ## Methods that are passed over -/

theorem collect_cons_ignored {className : String} {judge : Member → Except BuildError Verdict} {method : Member}
    (h : judge method = .ok .ignored) (m : AccessorMap) (methods : List Member) :
    collect className judge m (method :: methods) = collect className judge m methods := by
  simp [collect, h, settle]

/-- Judging methods in turn comes to the same, events included, without those that are passed over. -/
theorem collect_filter {className : String} {judge : Member → Except BuildError Verdict} {keep : Member → Bool}
    (h : ∀ method, keep method = false → judge method = .ok .ignored) : ∀ (methods : List Member) (m : AccessorMap),
    collect className judge m (methods.filter keep) = collect className judge m methods
  | [], _ => rfl
  | method :: methods, m => by
    cases hk : keep method with
    | false =>
      rw [List.filter_cons_of_neg (by simp [hk]), collect_cons_ignored (h method hk)]
      exact collect_filter h methods m
    | true =>
      rw [List.filter_cons_of_pos hk, collect, collect]
      cases judge method with
      | error e => rfl
      | ok verdict => simp only [collect_filter h methods]

/-- Classes with the same pool, the same name and the same methods that are read are the same to a build. -/
theorem build_congr {c c' : ClassFile} {start : String} (hp : c'.pool = c.pool) (ht : c'.thisClass = c.thisClass)
    (hm : c'.methods.filter (·.isRead c.pool start) = c.methods.filter (·.isRead c.pool start)) :
    build c' start = build c start := by
  have hn : c'.name = c.name := by rw [ClassFile.name, ClassFile.name, hp, ht]
  unfold build
  rw [hn]
  cases c.name with
  | error e => rfl
  | ok className =>
    have hi : ∀ method, method.isRead c.pool start = false →
        Verdict.ofMember c className (ModifiedUtf8.encode start) method = .ok .ignored :=
      fun _ => Verdict.ofMember_of_isRead_eq_false className
    dsimp only
    rw [Verdict.ofMember_congr hp, ← collect_filter hi c'.methods, hm, collect_filter hi c.methods]

/-- **What is no candidate has no influence.** Let the name of a method lead to bytes that do not start right, be they a
text or not. The class without this method, and with any other flags, descriptor and attributes of it, has the same map
or fails for the same reason, after the same events. So does a class with other versions, flags, super class,
interfaces, fields and attributes. -/
theorem build_unaffected (c : ClassFile) (start : String) :
    (∀ before m after bytes, c.methods = before ++ m :: after → c.pool.utf8At m.name = .ok bytes →
      ¬ ModifiedUtf8.encode start <+: bytes →
      build { c with methods := before ++ after } start = build c start ∧
      ∀ flags descriptor attributes, build { c with
        methods := before ++ { m with flags := flags, descriptor := descriptor, attributes := attributes } :: after }
        start = build c start) ∧
    ∀ minor major flags superClass interfaces fields attributes, build { c with
      minor := minor, major := major, flags := flags, superClass := superClass, interfaces := interfaces,
      fields := fields, attributes := attributes } start = build c start := by
  refine ⟨fun before m after bytes hm hn hs => ?_, fun minor major flags superClass interfaces fields attributes => ?_⟩
  · have hr : m.isRead c.pool start = false := Member.isRead_eq_false_iff.mpr ⟨bytes, hn, hs⟩
    refine ⟨build_congr rfl rfl ?_, fun flags descriptor attributes => build_congr rfl rfl ?_⟩
    · simp [hm, hr]
    · have hr' : Member.isRead c.pool start
          { m with flags := flags, descriptor := descriptor, attributes := attributes } = false := hr
      simp [hm, hr, hr']
  · exact build_congr rfl rfl rfl

/-- A class with an accessor, after a method with the same descriptor and the same code whose name is no text. -/
def strayClass : ClassFile where
  minor := 0
  major := 52
  pool := .ofConstants [.utf8 [0x4f], .classRef 1, .utf8 (ModifiedUtf8.encode "access$0"),
    .utf8 (ModifiedUtf8.encode "()I"), .utf8 (ModifiedUtf8.encode "Code"), .utf8 [0x78], .utf8 [0x49],
    .nameAndType 6 7, .fieldRef 2 8, .utf8 [0x61, 0xff]]
  flags := 0x0020
  thisClass := 2
  superClass := none
  interfaces := []
  fields := []
  methods := [10, 3].map fun name =>
    ⟨0x1008, name, 4, [⟨5, Code.layout ⟨1, 0, [0xb2, 0x00, 0x09, 0xac], [], []⟩⟩]⟩
  attributes := []

/-- There is one accessor in the class, also without that method, or if that method has neither a descriptor nor code
that can be had, or if the super class, an interface and a field cannot be had. -/
theorem build_strayClass :
    (strayClass.pool.text 10).toOption = none ∧
    (build strayClass "access$").outcome.toOption.map (·.accessors.map (·.name)) = some ["access$0"] ∧
    build { strayClass with methods := strayClass.methods.tail } "access$" = build strayClass "access$" ∧
    build { strayClass with methods := ⟨0, 10, 99, [⟨5, [0xff]⟩, ⟨99, []⟩]⟩ :: strayClass.methods.tail } "access$" =
      build strayClass "access$" ∧
    build { strayClass with superClass := some 99, interfaces := [99], fields := [⟨0, 99, 99, [⟨99, []⟩]⟩] } "access$" =
      build strayClass "access$" := by
  obtain ⟨hmethod, hclass⟩ := build_unaffected strayClass "access$"
  have hname : strayClass.pool.utf8At 10 = .ok [0x61, 0xff] := Outcome.toOption_eq_some.mp (by decide +kernel)
  obtain ⟨hwithout, hother⟩ := hmethod [] _ _ _ rfl hname (by decide)
  refine ⟨by decide +kernel, by decide +kernel, hwithout, hother _ _ _, ?_⟩
  exact hclass 0 52 0x0020 (some 99) [99] [⟨0, 99, 99, [⟨99, []⟩]⟩] []

end AccessorMap
end JvmAccessors
