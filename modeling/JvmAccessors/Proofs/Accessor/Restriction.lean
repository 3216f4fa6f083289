import JvmAccessors.Proofs.Accessor.Qualification

/-!
# Maps for longer starts

Accessors can be asked for by the start of their names. What a map has for a longer start is a part of what it has for a
shorter one (`AccessorMap.startingWith`): a method qualifies for the longer start exactly if it qualifies for the
shorter and its name starts with the longer (`qualifies_iff_of_longer`), and a method that can be judged for the shorter
can be judged for the longer (`Verdict.exists_ofMember_of_longer`). A map is told by what is found in it
(`AccessorMap.ext_find?`), so it comes to the same whether accessors are left out before they are inserted or after
(`AccessorMap.startingWith_insertAll`). Main statement: a longer start leaves of a map just the accessors whose names
start so (`AccessorMap.build_longer_start`).
-/

namespace JvmAccessors

/-! ## Maps are told by what is found in them -/

namespace Accessor

theorem Sorted.nodup {as : List Accessor} (h : Sorted as) : as.Nodup := by
  apply h.imp
  rintro a _ hlt rfl
  exact String.lt_irrefl _ hlt

/-- A sorted list is told by its members. -/
theorem Sorted.ext {as bs : List Accessor} (ha : Sorted as) (hb : Sorted bs) (h : ∀ a, a ∈ as ↔ a ∈ bs) : as = bs := by
  have hperm : as.Perm bs := (List.perm_ext_iff_of_nodup ha.nodup hb.nodup).mpr h
  refine hperm.eq_of_pairwise (fun a b _ _ hab hba => ?_) ha hb
  exact absurd (String.lt_trans hab hba) (String.lt_irrefl _)

/-- Whether the name of an accessor starts with a text. -/
def startsWith (start : String) (a : Accessor) : Bool := start.toList.isPrefixOf a.name.toList

theorem startsWith_iff {start : String} {a : Accessor} : a.startsWith start = true ↔ start.toList <+: a.name.toList :=
  List.isPrefixOf_iff_prefix

/-- Among the accessors whose names start with a text, those of a name are all or none. -/
theorem find?_filter_startsWith {start name : String} {as : List Accessor} :
    (as.filter (startsWith start)).find? (·.name = name) =
      if start.toList.isPrefixOf name.toList then as.find? (·.name = name) else none := by
  induction as with
  | nil => simp
  | cons a as ih =>
    by_cases hn : a.name = name
    · subst hn
      by_cases hs : a.startsWith start = true
      · have hp : start.toList.isPrefixOf a.name.toList = true := hs
        rw [List.filter_cons_of_pos hs, if_pos hp]
        simp
      · have hp : ¬ start.toList.isPrefixOf a.name.toList = true := hs
        rw [List.filter_cons_of_neg hs, ih, if_neg hp, if_neg hp]
    · have hf : (a :: as).find? (·.name = name) = as.find? (·.name = name) :=
        List.find?_cons_of_neg (by simpa using hn)
      by_cases hs : a.startsWith start = true
      · rw [List.filter_cons_of_pos hs, List.find?_cons_of_neg (by simpa using hn), ih, hf]
      · rw [List.filter_cons_of_neg hs, ih, hf]

end Accessor

namespace AccessorMap

/-- A map is told by the list of its accessors. -/
theorem ext_accessors_iff {m m' : AccessorMap} : m = m' ↔ m.accessors = m'.accessors := by
  cases m
  cases m'
  simp

/-- A map is told by its accessors. -/
theorem ext_mem {m m' : AccessorMap} (h : ∀ a, a ∈ m.accessors ↔ a ∈ m'.accessors) : m = m' :=
  ext_accessors_iff.mpr (m.sorted.ext m'.sorted h)

/-- A map is told by what is found in it. -/
theorem ext_find? {m m' : AccessorMap} (h : ∀ name, m.find? name = m'.find? name) : m = m' := by
  apply ext_mem
  intro a
  have ha : m.find? a.name = some a ↔ m'.find? a.name = some a := by rw [h]
  simpa [find?_eq_some_iff] using ha

/-! ## The accessors with a start -/

/-- The accessors of a map whose names start with a text. -/
def startingWith (start : String) (m : AccessorMap) : AccessorMap where
  accessors := m.accessors.filter (Accessor.startsWith start)
  sorted := m.sorted.filter _

theorem mem_startingWith {start : String} {m : AccessorMap} {a : Accessor} :
    a ∈ (m.startingWith start).accessors ↔ a ∈ m.accessors ∧ start.toList <+: a.name.toList := by
  rw [← Accessor.startsWith_iff]
  exact List.mem_filter

theorem find?_startingWith (start name : String) (m : AccessorMap) : (m.startingWith start).find? name =
    if start.toList.isPrefixOf name.toList then m.find? name else none :=
  Accessor.find?_filter_startsWith

theorem find?_startingWith_eq_some {start name : String} {m : AccessorMap} {a : Accessor} :
    (m.startingWith start).find? name = some a ↔ m.find? name = some a ∧ start.toList <+: name.toList := by
  rw [find?_eq_some_iff, find?_eq_some_iff, mem_startingWith]
  constructor
  · rintro ⟨⟨ha, hs⟩, rfl⟩
    exact ⟨⟨ha, rfl⟩, hs⟩
  · rintro ⟨⟨ha, rfl⟩, hs⟩
    exact ⟨⟨ha, hs⟩, rfl⟩

/-- Leaving accessors out after they are inserted comes to not inserting them. -/
theorem startingWith_insertAll (start : String) (as : List Accessor) :
    (empty.insertAll as).startingWith start = empty.insertAll (as.filter (Accessor.startsWith start)) := by
  have he : ∀ name, empty.find? name = none := fun _ => rfl
  apply ext_find?
  intro name
  rw [find?_startingWith, find?_insertAll, find?_insertAll, ← List.filter_reverse, Accessor.find?_filter_startsWith, he,
    Option.or_none, Option.or_none]

end AccessorMap

/-! ## Judgements for a longer start -/

variable {c : ClassFile} {className p s : String}

/-- A method qualifies for a longer start exactly if it qualifies for the shorter one and its name starts so. -/
theorem qualifies_iff_of_longer {method : Member} {a : Accessor} (hp : p.toList <+: s.toList) :
    Qualifies c s method a ↔ Qualifies c p method a ∧ s.toList <+: a.name.toList := by
  constructor
  · intro h
    exact ⟨{ h with starts := hp.trans h.starts }, h.starts⟩
  · rintro ⟨h, hs⟩
    exact { h with starts := hs }

namespace Verdict

/-- A method that can be judged for a start can be judged for a longer one: of its name no less is known, and of the
rest no more is read. -/
theorem exists_ofMember_of_longer {m : Member} (hp : p.toList <+: s.toList)
    (h : ∃ v, ofMember c className (ModifiedUtf8.encode p) m = .ok v) :
    ∃ v, ofMember c className (ModifiedUtf8.encode s) m = .ok v := by
  have hps : ModifiedUtf8.encode p <+: ModifiedUtf8.encode s := ModifiedUtf8.flatMap_prefix_iff.mpr hp
  obtain ⟨v, hv⟩ := h
  obtain ⟨bytes, hb, hv⟩ := Outcome.bind_eq_ok.mp hv
  by_cases hs : ModifiedUtf8.encode s <+: bytes
  · have hpb : (ModifiedUtf8.encode p).isPrefixOf bytes = true := List.isPrefixOf_iff_prefix.mpr (hps.trans hs)
    rw [if_pos hpb] at hv
    refine ⟨v, Outcome.bind_eq_ok.mpr ⟨bytes, hb, ?_⟩⟩
    rw [if_pos (List.isPrefixOf_iff_prefix.mpr hs)]
    exact hv
  · refine ⟨.ignored, Outcome.bind_eq_ok.mpr ⟨bytes, hb, ?_⟩⟩
    rw [if_neg (mt List.isPrefixOf_iff_prefix.mp hs)]
    rfl

/-- What a judgement for a longer start accepts is what one for the shorter accepts, if its name starts so. -/
theorem accessor?_ofMember_of_longer (hc : c.name = .ok className) (hp : p.toList <+: s.toList) (m : Member) :
    accessor? (ofMember c className (ModifiedUtf8.encode s) m) =
      (accessor? (ofMember c className (ModifiedUtf8.encode p) m)).filter (Accessor.startsWith s) := by
  apply Option.ext
  intro a
  have hq (start : String) : accessor? (ofMember c className (ModifiedUtf8.encode start) m) = some a ↔
      Qualifies c start m a := accessor?_eq_some.trans (ofMember_eq_accepted_iff hc)
  rw [hq, Option.filter_eq_some_iff, hq, Accessor.startsWith_iff]
  exact qualifies_iff_of_longer hp

end Verdict

namespace AccessorMap

open Verdict

/-- The map for a longer start is a part of that for the shorter one. -/
theorem build_startingWith {m : AccessorMap} (h : (build c p).outcome = .ok m) (hp : p.toList <+: s.toList) :
    (build c s).outcome = .ok (m.startingWith s) := by
  obtain ⟨className, hn, hall, rfl⟩ := build_eq_ok_iff.mp h
  refine build_eq_ok_iff.mpr ⟨className, hn, fun method hm => exists_ofMember_of_longer hp (hall method hm), ?_⟩
  rw [startingWith_insertAll, List.filter_filterMap]
  simp only [accessor?_ofMember_of_longer hn hp]

/-- **A longer start leaves of a map just the accessors whose names start so.** If a class has a map for a text, it has
one for every longer text, with the same accessors as far as their names start with that. So the map of all accessors
tells the map for every start. -/
theorem build_longer_start (c : ClassFile) :
    (∀ p q m, (build c p).outcome = .ok m → ∃ m', (build c (p ++ q)).outcome = .ok m' ∧
      (∀ a, a ∈ m'.accessors ↔ a ∈ m.accessors ∧ (p ++ q).toList <+: a.name.toList) ∧
      ∀ name a, m'.find? name = some a ↔ m.find? name = some a ∧ (p ++ q).toList <+: name.toList) ∧
    ∀ m, (build c "").outcome = .ok m → ∀ start, (build c start).outcome = .ok (m.startingWith start) := by
  refine ⟨fun p q m h => ?_, fun m h start => build_startingWith h List.nil_prefix⟩
  have hp : p.toList <+: (p ++ q).toList := by
    rw [String.toList_append]
    exact List.prefix_append _ _
  exact ⟨m.startingWith (p ++ q), build_startingWith h hp, fun a => mem_startingWith,
    fun name a => find?_startingWith_eq_some⟩

/-- A class with three methods that read its static field `x`; their names start alike and go on with nothing, with a NUL
and with a character above `U+FFFF`. -/
def alikeClass : ClassFile where
  minor := 0
  major := 52
  pool := .ofConstants [.utf8 [0x4f], .classRef 1, .utf8 (ModifiedUtf8.encode "Code"),
    .utf8 (ModifiedUtf8.encode "()I"), .utf8 [0x78], .utf8 [0x49], .nameAndType 5 6, .fieldRef 2 7,
    .utf8 (ModifiedUtf8.encode "a"), .utf8 (ModifiedUtf8.encode "a\x00"), .utf8 (ModifiedUtf8.encode "a😀")]
  flags := 0x0020
  thisClass := 2
  superClass := none
  interfaces := []
  fields := []
  methods := [9, 10, 11].map fun name => ⟨0x1008, name, 4, [⟨3, Code.layout ⟨1, 0, [0xb2, 0x00, 0x08, 0xac], [], []⟩⟩]⟩
  attributes := []

/-- The accessor of the class `O` that reads its static field `x`, under a name. -/
def readerOfStaticX (name : String) : Accessor := ⟨name, "()I", ⟨"O", "x", "I", true⟩, .read⟩

/-- Of the three accessors, those whose names go on with the character above `U+FFFF` are left. -/
theorem build_alikeClass : ∃ m m', (build alikeClass "a").outcome = .ok m ∧ m.size = 3 ∧
    (build alikeClass ("a" ++ "😀")).outcome = .ok m' ∧ m'.find? "a😀" = some (readerOfStaticX "a😀") ∧
    ∀ a ∈ m'.accessors, a ∈ m.accessors ∧ ("a" ++ "😀").toList <+: a.name.toList := by
  have h : (build alikeClass "a").outcome = .ok (empty.insertAll (["a", "a\x00", "a😀"].map readerOfStaticX)) :=
    Outcome.toOption_eq_some.mp (by decide +kernel)
  obtain ⟨m', hb, hm, hf⟩ := (build_longer_start alikeClass).1 "a" "😀" _ h
  refine ⟨_, m', h, by decide +kernel, hb, (hf _ _).mpr ⟨by decide +kernel, by decide +kernel⟩, fun a ha => (hm a).mp ha⟩

end AccessorMap
end JvmAccessors
