import JvmAccessors.Proofs.Access.Answers
import JvmAccessors.Proofs.Accessor.Candidates
import JvmAccessors.Proofs.Accessor.Failures
import JvmAccessors.Proofs.Accessor.Restriction
import Mathlib.Data.List.ReduceOption

/-!
# What a build tells

A build goes through the candidates of a class (`ClassFile.candidates`), the methods whose names start right, and tells
of each by at most one line of the log (`IsTold`): of a method that is no accessor why it is rejected (`IsRejected`), of
an accessor which one it takes the place of, and nothing if there is none of its name yet. The lines are given as they
are spelled, and are told apart by their levels and their last words (`LogEntry.isReplacement`, `LogEntry.isCompletion`).

A judgement adds to the log or to the map, never to both (`AccessorMap.settle_balance`), and the same holds of judgements
in turn (`AccessorMap.collect_balance`). Main statement: the candidates of a class are as many as its rejections, its
replacements and its accessors together, the lines of the log tell of them in order, and how many accessors there are is
told at the end, if there is a map (`AccessorMap.build_events`).
-/

namespace JvmAccessors

/-! ## Lines of the log -/

namespace LogEntry

/-- Whether a line ends with some words. -/
def endsWith (line : LogEntry) (words : String) : Bool := words.toList.isSuffixOf line.message.toList

/-- Whether a line tells that an accessor gave way to a later one of its name. -/
def isReplacement (line : LogEntry) : Bool :=
  line.level = .debug && line.endsWith " was replaced by a later accessor of the same name"

/-- Whether a line tells how many accessors a class has. -/
def isCompletion (line : LogEntry) : Bool := line.level = .debug && line.endsWith " accessor(s)"

/-- The last words of a line are those of its last part, if that is long enough. -/
theorem endsWith_append {level : Level} {front back words : String} (h : words.toList.length ≤ back.toList.length) :
    endsWith ⟨level, front ++ back⟩ words = words.toList.isSuffixOf back.toList := by
  rw [endsWith, Bool.eq_iff_iff, List.isSuffixOf_iff_suffix, List.isSuffixOf_iff_suffix, String.toList_append]
  constructor
  · exact fun hw => List.suffix_of_suffix_length_le hw (List.suffix_append _ _) h
  · exact fun hw => hw.trans (List.suffix_append _ _)

/-- A line whose last part ends with another character does not end with the words. -/
theorem endsWith_eq_false {level : Level} {front back words : String} {x y : Char}
    (hw : words.toList.getLast? = some x) (hb : back.toList.getLast? = some y) (hne : x ≠ y) :
    endsWith ⟨level, front ++ back⟩ words = false := by
  rw [endsWith, Bool.eq_false_iff, Ne, List.isSuffixOf_iff_suffix, String.toList_append]
  rintro ⟨rest, h⟩
  have hlast := congrArg List.getLast? h
  rw [List.getLast?_append, List.getLast?_append, hw, hb] at hlast
  exact hne (Option.some.inj hlast)

end LogEntry

/-! ## Candidates -/

instance (p : Pool) (start : String) (m : Member) : Decidable (m.IsCandidate p start) :=
  match h : p.utf8At m.name with
  | .ok bytes => decidable_of_iff (ModifiedUtf8.encode start <+: bytes) (by simp [Member.IsCandidate, h])
  | .error _ => isFalse (by simp [Member.IsCandidate, h])

/-- The methods of a class whose names start right, in order. -/
def ClassFile.candidates (c : ClassFile) (start : String) : List Member :=
  c.methods.filter fun m => m.IsCandidate c.pool start

/-- The judgement on a method of a class. -/
abbrev ClassFile.judgement (c : ClassFile) (className start : String) : Member → Except BuildError Verdict :=
  Verdict.ofMember c className (ModifiedUtf8.encode start)

/-- A method is abstract or native. -/
def Member.IsBodiless (m : Member) : Prop := m.flags &&& 0x0400 ≠ 0 ∨ m.flags &&& 0x0100 ≠ 0

theorem Member.isBodiless_iff {m : Member} : m.IsBodiless ↔ Flags.hasBody m.flags = false := by
  rw [← Bool.not_eq_true, Flags.hasBody_iff, not_and_or, IsBodiless]

/-- **Why a candidate is no accessor**, and the words that follow its name then. -/
inductive IsRejected (c : ClassFile) (className : String) (method : Member) : String → Prop
  | noBody : method.IsBodiless → IsRejected c className method " has no body"
  /-- It has a body, but all its attributes are others. -/
  | noCode : ¬ method.IsBodiless → (∀ a ∈ method.attributes, Attribute.NotCode c.pool a) →
      IsRejected c className method " has no code attribute"
  /-- Its code comes to no field instruction, or to several. -/
  | notOneField {code : Code} : ¬ method.IsBodiless → Attribute.HoldsCode c.pool method.attributes code →
      (Scan.fieldInstructions code.bytecode).length ≠ 1 →
      IsRejected c className method " does not touch exactly one field"
  /-- Its descriptor is not the signature of an accessor that makes its one access. -/
  | misfit {code : Code} {descriptor : String} {access : FieldAccess} {type : MethodType} : ¬ method.IsBodiless →
      Attribute.HoldsCode c.pool method.attributes code → Scan.OnlyAccess c.pool code.bytecode access →
      c.pool.text method.descriptor = .ok descriptor → access.signature className = .ok type → type.text ≠ descriptor →
      IsRejected c className method (" " ++ descriptor ++ " does not fit a " ++
        (if access.direction = .read then "read" else "write") ++ " of " ++
        (if access.field.isStatic then "static" else "instance") ++ " " ++ access.field.owner ++ "." ++
        access.field.name ++ " " ++ access.field.type)

/-- **What is told of a candidate**, if there are already the accessors of a map. -/
inductive IsTold (c : ClassFile) (start className : String) (m : AccessorMap) (method : Member) :
    Option LogEntry → Prop
  /-- It is no accessor. -/
  | rejection {name words : String} : c.pool.text method.name = .ok name → IsRejected c className method words →
      (¬ ∃ a, Qualifies c start method a) →
      IsTold c start className m method (some ⟨.trace, className ++ "." ++ name ++ words⟩)
  /-- It is the first accessor of its name, which is told by no line. -/
  | first {a : Accessor} : Qualifies c start method a → m.find? a.name = none → IsTold c start className m method none
  /-- It takes the place of an accessor. -/
  | replacement {a previous : Accessor} : Qualifies c start method a → m.find? a.name = some previous →
      IsTold c start className m method (some ⟨.debug, className ++ "." ++ previous.name ++ " " ++ previous.signature ++
        " was replaced by a later accessor of the same name"⟩)

namespace Verdict

open Outcome

variable {c : ClassFile} {className start : String} {m : Member} {v : Verdict}

/-- A judgement is a rejection, for a reason and in its words, or it accepts an accessor. -/
def Settles (c : ClassFile) (className name : String) (m : Member) (v : Verdict) : Prop :=
  (∃ reason, v = .rejected name reason ∧ IsRejected c className m reason.text) ∨ ∃ a, v = .accepted a

/-- The words for an access that a descriptor does not fit. -/
theorem text_misfit (descriptor : String) (access : FieldAccess) : (Rejection.misfit descriptor access).text =
    " " ++ descriptor ++ " does not fit a " ++ (if access.direction = .read then "read" else "write") ++ " of " ++
      (if access.field.isStatic then "static" else "instance") ++ " " ++ access.field.owner ++ "." ++
      access.field.name ++ " " ++ access.field.type := by
  have h : (Rejection.misfit descriptor access).text =
      " " ++ descriptor ++ " does not fit a " ++ access.direction.text ++ " of " ++ access.field.text := rfl
  rw [h, Direction.text_eq, FieldRef.text_eq]
  simp only [String.append_assoc]

/-- A method with code is accepted, or rejected for what its code does. -/
theorem settles_ofCode {name : String} {code : Code} (hb : ¬ m.IsBodiless)
    (hcode : Attribute.HoldsCode c.pool m.attributes code) (h : ofCode c className name m code = .ok v) :
    Settles c className name m v := by
  obtain ⟨descriptor, hd, h⟩ := bind_eq_ok.mp h
  obtain ⟨found, hs, h⟩ := bind_eq_ok.mp h
  have hd := mapError_eq_ok.mp hd
  have hs := mapError_eq_ok.mp hs
  cases found with
  | none =>
    cases h
    exact .inl ⟨.notOneField, rfl, .notOneField hb hcode (length_fieldInstructions_of_scan hs)⟩
  | some access =>
    obtain ⟨fits, hf, h⟩ := bind_eq_ok.mp h
    obtain ⟨type, ht, hfits⟩ := map_eq_ok.mp (mapError_eq_ok.mp hf)
    cases fits with
    | false =>
      cases h
      refine .inl ⟨.misfit descriptor access, rfl, ?_⟩
      rw [text_misfit]
      exact .misfit hb hcode (scan_eq_some_iff_onlyAccess.mp hs) hd ht (of_decide_eq_false hfits)
    | true =>
      cases h
      exact .inr ⟨_, rfl⟩

/-- A candidate is accepted, or rejected under its name. -/
theorem settles_ofCandidate (h : ofCandidate c className m = .ok v) :
    ∃ name, c.pool.text m.name = .ok name ∧ Settles c className name m v := by
  obtain ⟨name, hn, h⟩ := bind_eq_ok.mp h
  refine ⟨name, mapError_eq_ok.mp hn, ?_⟩
  split at h
  · rename_i hbody
    have hb : ¬ m.IsBodiless := by rw [Member.isBodiless_iff, hbody]; nofun
    obtain ⟨found, hf, h⟩ := bind_eq_ok.mp h
    have hf := mapError_eq_ok.mp hf
    cases found with
    | none =>
      cases h
      exact .inl ⟨.noCode, rfl, .noCode hb (Attribute.findCode_eq_none_iff.mp hf)⟩
    | some code => exact settles_ofCode hb (Attribute.findCode_eq_some_iff.mp hf) h
  · rename_i hbody
    cases h
    exact .inl ⟨.noBody, rfl, .noBody (Member.isBodiless_iff.mpr (Bool.not_eq_true _ ▸ hbody))⟩

/-- A candidate that can be judged is not passed over. -/
theorem settles_judgement (hm : m.IsCandidate c.pool start) (h : c.judgement className start m = .ok v) :
    ∃ name, c.pool.text m.name = .ok name ∧ Settles c className name m v := by
  obtain ⟨bytes, hb, hs⟩ := hm
  obtain ⟨bytes', hb', h⟩ := bind_eq_ok.mp h
  cases hb.symm.trans (mapError_eq_ok.mp hb')
  rw [if_pos (List.isPrefixOf_iff_prefix.mpr hs)] at h
  exact settles_ofCandidate h

theorem judgement_ne_ignored (hm : m.IsCandidate c.pool start) : c.judgement className start m ≠ .ok .ignored := by
  intro h
  obtain ⟨name, -, ⟨reason, hv, -⟩ | ⟨a, hv⟩⟩ := settles_judgement hm h
  · cases hv
  · cases hv

/-- The line by which a judgement is told, if it is told. -/
def told (className : String) (m : AccessorMap) : Verdict → Option LogEntry
  | .ignored => none
  | .rejected name reason => some (.ofEvent (.rejected className name reason))
  | .accepted a => (m.find? a.name).map fun previous => .ofEvent (.replaced className previous)

/-- A judgement on a candidate is told as it has to be. -/
theorem isTold_told (hc : c.name = .ok className) (hm : m.IsCandidate c.pool start)
    (hv : c.judgement className start m = .ok v) (before : AccessorMap) :
    IsTold c start className before m (v.told className before) := by
  obtain ⟨name, hn, ⟨reason, rfl, hr⟩ | ⟨a, rfl⟩⟩ := settles_judgement hm hv
  · refine .rejection hn hr fun hq => ?_
    obtain ⟨a, ha⟩ := hq
    cases hv.symm.trans ((ofMember_eq_accepted_iff hc).mpr ha)
  · have ha : Qualifies c start m a := (ofMember_eq_accepted_iff hc).mp hv
    cases hf : before.find? a.name with
    | none =>
      rw [told, hf]
      exact .first ha hf
    | some previous =>
      rw [told, hf]
      exact .replacement ha hf

end Verdict

/-! ## Which lines of a build are which -/

namespace LogEntry

theorem isReplacement_replaced (className : String) (previous : Accessor) :
    isReplacement (ofEvent (.replaced className previous)) = true :=
  endsWith_append (Nat.le_refl _) |>.trans (by decide)

theorem isReplacement_completed (className : String) (count : Nat) :
    isReplacement (ofEvent (.completed className count)) = false :=
  endsWith_eq_false (x := 'e') (y := ')') (by decide) (by decide) (by decide)

theorem isCompletion_replaced (className : String) (previous : Accessor) :
    isCompletion (ofEvent (.replaced className previous)) = false :=
  endsWith_eq_false (x := ')') (y := 'e') (by decide) (by decide) (by decide)

theorem isCompletion_of_mem_told {className : String} {m : AccessorMap} {v : Verdict} {line : LogEntry}
    (h : line ∈ v.told className m) : line.isCompletion = false := by
  cases v with
  | ignored => cases h
  | rejected name reason =>
    cases h
    rfl
  | accepted a =>
    obtain ⟨previous, -, rfl⟩ := Option.map_eq_some_iff.mp h
    exact isCompletion_replaced className previous

end LogEntry

namespace AccessorMap

variable {className : String} {judge : Member → Except BuildError Verdict} {m m' : AccessorMap} {method : Member}
  {methods : List Member}

/-! ## Judgements and what they add -/

/-- A judgement is told by at most one line. -/
theorem map_fst_settle (m : AccessorMap) (v : Verdict) :
    (settle className m v).1.map .ofEvent = (v.told className m).toList := by
  cases v with
  | ignored => rfl
  | rejected name reason => rfl
  | accepted a =>
    rw [Verdict.told, ← snd_insert, settle]
    split <;> rename_i hi <;> rw [hi] <;> rfl

/-- Judging methods in turn succeeds if the first judgement does, and then judging the others. -/
theorem collect_cons_eq_ok_iff : (collect className judge m (method :: methods)).outcome = .ok m' ↔
    ∃ v, judge method = .ok v ∧ (collect className judge (settle className m v).2 methods).outcome = .ok m' := by
  rw [collect]
  cases judge method with
  | error e => simp [Traced.ofExcept]
  | ok v => simp

theorem log_collect_cons_of_ok {v : Verdict} (hv : judge method = .ok v) :
    (collect className judge m (method :: methods)).log =
      (v.told className m).toList ++ (collect className judge (settle className m v).2 methods).log := by
  rw [← map_fst_settle, collect, hv]
  exact List.map_append

theorem log_collect_cons_of_error {e : BuildError} (he : judge method = .error e) :
    (collect className judge m (method :: methods)).log = [] := by
  rw [collect, he]
  rfl

theorem length_insertInto (a : Accessor) : ∀ bs : List Accessor,
    (insertInto a bs).1.length + (insertInto a bs).2.toList.length = bs.length + 1
  | [] => rfl
  | b :: bs => by
    unfold insertInto
    split
    · rfl
    · split
      · rfl
      · have ih := length_insertInto a bs
        simp only [List.length_cons]
        omega

/-- A map grows by one accessor, unless one gives way. -/
theorem size_insert (m : AccessorMap) (a : Accessor) :
    (m.insert a).1.size + (m.find? a.name).toList.length = m.size + 1 := by
  rw [← snd_insert]
  exact length_insertInto a m.accessors

/-- A judgement on a candidate is told as a rejection, or as a replacement, or the map grows. -/
theorem settle_balance (className : String) (m : AccessorMap) {v : Verdict} (hv : v ≠ .ignored) :
    (v.told className m).toList.countP (·.level = .trace) + (v.told className m).toList.countP LogEntry.isReplacement +
      (settle className m v).2.size = m.size + 1 := by
  cases v with
  | ignored => exact absurd rfl hv
  | rejected name reason =>
    show 1 + 0 + m.size = m.size + 1
    omega
  | accepted a =>
    have hsize := size_insert m a
    rw [snd_settle, Verdict.told]
    show _ + _ + (m.insert a).1.size = _
    cases hf : m.find? a.name with
    | none =>
      rw [hf] at hsize
      show 0 + 0 + (m.insert a).1.size = m.size + 1
      simpa using hsize
    | some previous =>
      rw [hf] at hsize
      have htrace : (LogEntry.ofEvent (.replaced className previous)).level ≠ .trace := nofun
      have hone : (some previous).toList.length = 1 := rfl
      simp only [Option.map_some, Option.toList_some, List.countP_singleton, htrace,
        LogEntry.isReplacement_replaced, decide_false, Bool.false_eq_true, if_false, if_true]
      omega

/-- Methods that are judged in turn and not passed over are told as rejections or as replacements, or the map grows. -/
theorem collect_balance (hj : ∀ method ∈ methods, judge method ≠ .ok .ignored) :
    ∀ m, (collect className judge m methods).outcome = .ok m' →
      (collect className judge m methods).log.countP (·.level = .trace) +
        (collect className judge m methods).log.countP LogEntry.isReplacement + m'.size = m.size + methods.length := by
  induction methods with
  | nil =>
    intro m h
    obtain rfl : m = m' := Except.ok.inj h
    show 0 + 0 + m.size = m.size + 0
    omega
  | cons method methods ih =>
    intro m h
    obtain ⟨hm, hms⟩ := List.forall_mem_cons.mp hj
    obtain ⟨v, hv, hrest⟩ := collect_cons_eq_ok_iff.mp h
    have hstep := settle_balance className m fun he : v = .ignored => hm (he ▸ hv)
    have hlater := ih hms (settle className m v).2 hrest
    simp only [log_collect_cons_of_ok hv, List.countP_append, List.length_cons]
    omega

/-! ## One place for each method -/

/-- How judgements in turn are told, with one place for each method. -/
def tellings (className : String) (judge : Member → Except BuildError Verdict) :
    AccessorMap → List Member → List (Option LogEntry)
  | _, [] => []
  | m, method :: rest =>
    match judge method with
    | .error _ => []
    | .ok v => v.told className m :: tellings className judge (settle className m v).2 rest

theorem log_collect : ∀ (methods : List Member) (m : AccessorMap),
    (collect className judge m methods).log = (tellings className judge m methods).reduceOption
  | [], _ => rfl
  | method :: methods, m => by
    rw [tellings]
    cases hj : judge method with
    | error e => exact log_collect_cons_of_error hj
    | ok v =>
      show _ = (v.told className m :: _).reduceOption
      rw [log_collect_cons_of_ok hj, log_collect methods]
      cases v.told className m with
      | none => exact List.reduceOption_cons_of_none _
      | some line => exact List.reduceOption_cons_of_some _ _

theorem length_tellings : ∀ (methods : List Member) (m : AccessorMap),
    (∀ method ∈ methods, ∃ v, judge method = .ok v) →
      (tellings className judge m methods).length = methods.length
  | [], _, _ => rfl
  | method :: methods, m, h => by
    obtain ⟨⟨v, hv⟩, hms⟩ := List.forall_mem_cons.mp h
    rw [tellings, hv]
    exact congrArg Nat.succ (length_tellings methods _ hms)

/-- In the place of a method is what is told of it, given the map that the methods before it leave. -/
theorem getElem?_tellings {after : List Member} {v : Verdict} (hv : judge method = .ok v) :
    ∀ (before : List Member) (m : AccessorMap), (collect className judge m before).outcome = .ok m' →
      (tellings className judge m (before ++ method :: after))[before.length]? = some (v.told className m')
  | [], m, h => by
    cases h
    simp [tellings, hv]
  | b :: before, m, h => by
    obtain ⟨w, hw, h⟩ := collect_cons_eq_ok_iff.mp h
    rw [List.cons_append, tellings, hw]
    exact getElem?_tellings hv before _ h

theorem isCompletion_of_mem_collect {line : LogEntry} : ∀ (methods : List Member) (m : AccessorMap),
    line ∈ (collect className judge m methods).log → line.isCompletion = false
  | [], _, h => by cases h
  | method :: methods, m, h => by
    cases hj : judge method with
    | error e =>
      rw [log_collect_cons_of_error hj] at h
      cases h
    | ok v =>
      rw [log_collect_cons_of_ok hj] at h
      obtain h | h := List.mem_append.mp h
      · exact LogEntry.isCompletion_of_mem_told (Option.mem_toList.mp h)
      · exact isCompletion_of_mem_collect methods _ h

/-! ## Builds -/

variable {c : ClassFile} {start : String}

/-- Of methods that can be judged, those that are read are the candidates. -/
theorem candidates_eq_filter (hj : ∀ method ∈ c.methods, ∃ v, c.judgement className start method = .ok v) :
    c.candidates start = c.methods.filter (·.isRead c.pool start) := by
  apply List.filter_congr
  intro method hm
  obtain ⟨v, hv⟩ := hj method hm
  obtain ⟨bytes, hb, -⟩ := Outcome.bind_eq_ok.mp hv
  have hb' : c.pool.utf8At method.name = .ok bytes := Outcome.mapError_eq_ok.mp hb
  rw [Bool.eq_iff_iff, decide_eq_true_eq]
  simp [Member.IsCandidate, Member.isRead, hb']

/-- Judging methods in turn comes to judging the candidates in turn, if all can be judged. -/
theorem collect_candidates (m : AccessorMap)
    (hj : ∀ method ∈ c.methods, ∃ v, c.judgement className start method = .ok v) :
    collect className (c.judgement className start) m (c.candidates start) =
      collect className (c.judgement className start) m c.methods := by
  rw [candidates_eq_filter hj]
  exact collect_filter (fun _ => Verdict.ofMember_of_isRead_eq_false className) c.methods m

theorem build_of_name (hc : c.name = .ok className) : build c start =
    (collect className (c.judgement className start) empty c.methods).andThen fun m =>
      ⟨[.completed className m.size], .ok m⟩ := by
  rw [build, hc]

/-- A build that fails tells of no end. -/
theorem isCompletion_of_mem_build {e : BuildError} {line : LogEntry} (h : (build c start).outcome = .error e)
    (hl : line ∈ (build c start).log) : line.isCompletion = false := by
  cases hc : c.name with
  | error cause =>
    rw [build, hc] at hl
    cases hl
  | ok className =>
    rw [build_of_name hc, Traced.andThen] at h hl
    split at hl
    · exact isCompletion_of_mem_collect c.methods empty hl
    · rename_i hok
      rw [hok] at h
      cases h

/-- A build that succeeds judges the candidates in turn, and tells at the end how many accessors there are. -/
theorem collect_of_build (h : (build c start).outcome = .ok m) : ∃ className, c.name = .ok className ∧
    (∀ method ∈ c.methods, ∃ v, c.judgement className start method = .ok v) ∧
    (collect className (c.judgement className start) empty (c.candidates start)).outcome = .ok m ∧
    (build c start).log =
      (collect className (c.judgement className start) empty (c.candidates start)).log ++
        [.ofEvent (.completed className m.size)] := by
  obtain ⟨className, hc, hj, -⟩ := build_eq_ok_iff.mp h
  refine ⟨className, hc, hj, ?_⟩
  rw [build_of_name hc] at h ⊢
  obtain ⟨m', hm', hm⟩ := Outcome.andThen_eq_ok.mp h
  cases hm
  rw [collect_candidates empty hj, Traced.andThen, hm']
  exact ⟨rfl, List.map_append⟩

/-- The candidates are as many as the rejections, the replacements and the accessors together. -/
theorem build_balance (h : (build c start).outcome = .ok m) : (c.candidates start).length =
    (build c start).log.countP (·.level = .trace) + (build c start).log.countP LogEntry.isReplacement + m.size := by
  obtain ⟨className, -, -, hm, hlog⟩ := collect_of_build h
  have hcandidates : ∀ method ∈ c.candidates start, c.judgement className start method ≠ .ok .ignored :=
    fun method hm => Verdict.judgement_ne_ignored (by simpa using List.of_mem_filter hm)
  have hbalance := collect_balance hcandidates empty hm
  have hempty : empty.size = 0 := rfl
  -- the line at the end is neither a rejection nor a replacement
  have htrace : (LogEntry.ofEvent (.completed className m.size)).level ≠ .trace := nofun
  simp only [hlog, List.countP_append, List.countP_singleton, htrace, LogEntry.isReplacement_completed, decide_false,
    Bool.false_eq_true, if_false]
  omega

section Places

variable {before after : List Member}

/-- A judgement on a method does not depend on the other methods. -/
theorem judgement_methods :
    ClassFile.judgement { c with methods := before } className start = c.judgement className start :=
  Verdict.ofMember_congr rfl className _

/-- In the place of a candidate is how the judgement on it is told, given the map of the methods before it. -/
theorem getElem?_tellings_candidates {earlier : AccessorMap} {v : Verdict} (hc : c.name = .ok className)
    (hm : c.methods = before ++ method :: after) (hcandidate : method.IsCandidate c.pool start)
    (hv : c.judgement className start method = .ok v)
    (h : (build { c with methods := before } start).outcome = .ok earlier) :
    (tellings className (c.judgement className start) empty (c.candidates start))[
      (ClassFile.candidates { c with methods := before } start).length]? = some (v.told className earlier) := by
  have hsplit : c.candidates start = ClassFile.candidates { c with methods := before } start ++ method ::
      ClassFile.candidates { c with methods := after } start := by
    simp [ClassFile.candidates, hm, hcandidate]
  obtain ⟨className', hc', -, hcollect, -⟩ := collect_of_build h
  obtain rfl : className = className' := Except.ok.inj (hc.symm.trans hc')
  rw [judgement_methods] at hcollect
  rw [hsplit]
  exact getElem?_tellings hv _ empty hcollect

/-- Of every candidate it is told what has to be told, given the map of the methods before it. -/
theorem exists_told (hc : c.name = .ok className)
    (hj : ∀ method ∈ c.methods, ∃ v, c.judgement className start method = .ok v)
    (hm : c.methods = before ++ method :: after) (hcandidate : method.IsCandidate c.pool start) :
    ∃ earlier told, (build { c with methods := before } start).outcome = .ok earlier ∧
      (tellings className (c.judgement className start) empty (c.candidates start))[
        (ClassFile.candidates { c with methods := before } start).length]? = some told ∧
      IsTold c start className earlier method told := by
  obtain ⟨v, hv⟩ := hj method (by simp [hm])
  have hearlier : ∃ earlier, (build { c with methods := before } start).outcome = .ok earlier := by
    refine ⟨_, build_eq_ok_iff.mpr ⟨className, hc, fun b hb => ?_, rfl⟩⟩
    show ∃ w, ClassFile.judgement { c with methods := before } className start b = .ok w
    rw [judgement_methods]
    exact hj b (by simp [hm, show b ∈ before from hb])
  obtain ⟨earlier, h⟩ := hearlier
  exact ⟨earlier, v.told className earlier, h, getElem?_tellings_candidates hc hm hcandidate hv h,
    Verdict.isTold_told hc hcandidate hv earlier⟩

end Places

/-- **The account of a build.** If a class has a map, the candidates are as many as the rejections, which are the lines
of the lowest level, the replacements and the accessors together. There is a place for each candidate, in order, that
holds what is told of it given the map of the methods before it, so at most one line; the log is these lines and one more
at the end, the only one that tells how many accessors there are. If a class has no map, no line tells how many. -/
theorem build_events (c : ClassFile) (start : String) :
    (∀ m, (build c start).outcome = .ok m →
      (c.candidates start).length = (build c start).log.countP (·.level = .trace) +
        (build c start).log.countP LogEntry.isReplacement + m.size ∧
      ∃ className, c.name = .ok className ∧ ∃ tellings : List (Option LogEntry),
        tellings.length = (c.candidates start).length ∧
        (∀ before method after, c.methods = before ++ method :: after → method.IsCandidate c.pool start →
          ∃ earlier told, (build { c with methods := before } start).outcome = .ok earlier ∧
            tellings[(ClassFile.candidates { c with methods := before } start).length]? = some told ∧
            IsTold c start className earlier method told) ∧
        (build c start).log =
          tellings.reduceOption ++ [⟨.debug, className ++ " has " ++ toString m.size ++ " accessor(s)"⟩] ∧
        ∀ line ∈ tellings.reduceOption, line.isCompletion = false) ∧
    ((∃ e, (build c start).outcome = .error e) → ∀ line ∈ (build c start).log, line.isCompletion = false) := by
  constructor
  · intro m h
    obtain ⟨className, hc, hj, -, hlog⟩ := collect_of_build h
    rw [log_collect] at hlog
    refine ⟨build_balance h, className, hc, _, length_tellings _ _ fun method hm => ?_,
      fun before method after hm => exists_told hc hj hm, hlog, fun line hl => ?_⟩
    · exact hj method (List.mem_of_mem_filter hm)
    · rw [← log_collect] at hl
      exact isCompletion_of_mem_collect _ _ hl
  · intro h line hl
    obtain ⟨e, h⟩ := h
    exact isCompletion_of_mem_build h hl

/-- A class with three accessors whose names start alike, a later accessor with the name of the first, and an abstract
method with the name of the second. -/
def crowdedClass : ClassFile :=
  { alikeClass with methods := alikeClass.methods ++ alikeClass.methods.take 1 ++ [⟨0x0400, 10, 4, []⟩] }

/-- Of the five candidates one is rejected, one takes the place of another, and three accessors are left; the log tells
of the first two and then how many are left. -/
theorem build_crowdedClass : ∃ m, (build crowdedClass "a").outcome = .ok m ∧ m.size = 3 ∧
    (crowdedClass.candidates "a").length = 5 ∧
    (build crowdedClass "a").log.countP (·.level = .trace) +
      (build crowdedClass "a").log.countP LogEntry.isReplacement = 2 ∧
    (build crowdedClass "a").log.getLast? = some ⟨.debug, "O has 3 accessor(s)"⟩ ∧
    (build crowdedClass "a").log.dropLast = [
      ⟨.debug, "O.a ()I was replaced by a later accessor of the same name"⟩, ⟨.trace, "O.a\x00 has no body"⟩] := by
  have h : (build crowdedClass "a").outcome = .ok (empty.insertAll (["a", "a\x00", "a😀", "a"].map readerOfStaticX)) :=
    Outcome.toOption_eq_some.mp (by decide +kernel)
  obtain ⟨hbalance, className, hc, tellings, -, -, hlog, -⟩ := (build_events crowdedClass "a").1 _ h
  have hsize : (empty.insertAll (["a", "a\x00", "a😀", "a"].map readerOfStaticX)).size = 3 := by decide +kernel
  have hlength : (crowdedClass.candidates "a").length = 5 := by decide +kernel
  have hname : crowdedClass.name = .ok "O" := Outcome.toOption_eq_some.mp (by decide +kernel)
  obtain rfl : "O" = className := Except.ok.inj (hname.symm.trans hc)
  refine ⟨_, h, hsize, hlength, by omega, ?_, by decide +kernel⟩
  rw [hlog, hsize, List.getLast?_concat]
  decide +kernel

end AccessorMap
end JvmAccessors
