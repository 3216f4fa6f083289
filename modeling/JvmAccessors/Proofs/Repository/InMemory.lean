import Mathlib.Data.Finset.Card
import Mathlib.Data.List.Forall2
import JvmAccessors.Proofs.Outcome
import JvmAccessors.Repository.InMemory

/-!
# Classes in memory after any insertions

Names are the same class if they differ in separators alone (`ClassName.internal_eq_iff`). What a repository in memory
has under a name after a row of insertions is what was inserted last for that class (`InMemory.find?_insertAll_eq_some`),
and it has each class once (`InMemory.size_insertAll`). Main statement: a lookup answers from the bytes inserted last,
for every spelling of the names on both sides, and the class is not found exactly if none was inserted
(`InMemory.lookup_insertAll`).
-/

namespace JvmAccessors

/-! ## Spellings of a name -/

namespace ClassName

/-- Two characters are the same, or both separate the parts of a name. -/
def SameChar (c d : Char) : Prop := c = d ∨ c ∈ ['.', '/'] ∧ d ∈ ['.', '/']

theorem separator_eq_iff {c d : Char} : separator c = separator d ↔ SameChar c d := by
  simp only [separator, SameChar, List.mem_cons, List.not_mem_nil, or_false]
  split <;> split <;> simp_all [eq_comm]

/-- Names have one internal form exactly if they differ in separators alone. -/
theorem internal_eq_iff {m n : String} : internal m = internal n ↔ List.Forall₂ SameChar m.toList n.toList := by
  rw [← String.toList_inj, toList_internal, toList_internal, ← List.forall₂_eq_eq_eq, List.forall₂_map_left_iff,
    List.forall₂_map_right_iff]
  simp only [separator_eq_iff]

end ClassName

/-! ## Entries by their keys -/

/-- What is kept under a key stays if what is kept under another one is taken away. -/
theorem find?_filter_key_ne {κ α : Type} [DecidableEq κ] {entries : List (κ × α)} {gone key : κ} (h : key ≠ gone) :
    (entries.filter (·.1 ≠ gone)).find? (·.1 = key) = entries.find? (·.1 = key) := by
  rw [List.find?_filter]
  congr 1
  funext entry
  by_cases he : entry.1 = key <;> simp [he, h]

namespace InMemory

/-! ## One insertion -/

theorem find?_insert (r : InMemory) (name : String) (b : Bytes) (key : String) :
    (r.insert name b).find? key = if ClassName.internal name = key then some b else r.find? key := by
  rw [find?, find?, insert]
  by_cases h : ClassName.internal name = key
  · simp [h]
  · rw [List.find?_cons_of_neg (by simpa using h), find?_filter_key_ne (Ne.symm h), if_neg h]

/-- The internal names that something is kept under. -/
def keys (r : InMemory) : List String := r.classes.map (·.1)

theorem mem_keys_insert {r : InMemory} {name : String} {b : Bytes} {key : String} :
    key ∈ (r.insert name b).keys ↔ ClassName.internal name = key ∨ key ∈ r.keys := by
  by_cases h : ClassName.internal name = key
  · simp [keys, insert, h]
  · simp [keys, insert, h, Ne.symm h]

/-- Nothing is kept twice under a name. -/
theorem nodup_keys_insert {r : InMemory} (h : r.keys.Nodup) (name : String) (b : Bytes) :
    (r.insert name b).keys.Nodup := by
  refine List.nodup_cons.mpr ⟨fun hm => ?_, h.sublist (List.filter_sublist.map _)⟩
  obtain ⟨entry, he, hk⟩ := List.mem_map.mp hm
  simpa [hk] using (List.mem_filter.mp he).2

/-! ## Rows of insertions -/

/-- The repository with more classes, inserted one after the other. -/
def insertAll (r : InMemory) (inserts : List (String × Bytes)) : InMemory :=
  inserts.foldl (fun r entry => r.insert entry.1 entry.2) r

theorem insertAll_cons (r : InMemory) (entry : String × Bytes) (inserts : List (String × Bytes)) :
    r.insertAll (entry :: inserts) = (r.insert entry.1 entry.2).insertAll inserts := rfl

/-- **The bytes inserted last for a class**, under whatever spelling of its name. -/
def Latest (inserts : List (String × Bytes)) (name : String) (b : Bytes) : Prop :=
  ∃ earlier n later, inserts = earlier ++ (n, b) :: later ∧ ClassName.internal n = ClassName.internal name ∧
    ∀ entry ∈ later, ClassName.internal entry.1 ≠ ClassName.internal name

theorem find?_insertAll (key : String) : ∀ (inserts : List (String × Bytes)) (r : InMemory),
    (r.insertAll inserts).find? key =
      ((inserts.reverse.find? (ClassName.internal ·.1 = key)).map (·.2)).or (r.find? key)
  | [], r => by simp [insertAll]
  | entry :: inserts, r => by
    rw [insertAll_cons, find?_insertAll key inserts, find?_insert, List.reverse_cons, List.find?_append,
      Option.map_or, Option.or_assoc]
    congr 1
    by_cases h : ClassName.internal entry.1 = key <;> simp [h]

/-- After a row of insertions a class has the bytes that were inserted last for it. -/
theorem find?_insertAll_eq_some {inserts : List (String × Bytes)} {name : String} {b : Bytes} :
    (empty.insertAll inserts).find? (ClassName.internal name) = some b ↔ Latest inserts name b := by
  have he : empty.find? (ClassName.internal name) = none := rfl
  simp only [find?_insertAll, he, Option.or_none, Option.map_eq_some_iff, List.find?_eq_some_iff_append,
    decide_eq_true_eq, Bool.not_eq_true', decide_eq_false_iff_not]
  constructor
  · intro h
    obtain ⟨⟨n, _⟩, ⟨hn, later, earlier, hr, hl⟩, rfl⟩ := h
    refine ⟨earlier.reverse, n, later.reverse, ?_, hn, fun entry he => hl entry (List.mem_reverse.mp he)⟩
    rw [← List.reverse_reverse inserts, hr]
    simp
  · intro h
    obtain ⟨earlier, n, later, rfl, hn, hl⟩ := h
    exact ⟨(n, b), ⟨hn, later.reverse, earlier.reverse, by simp, fun entry he => hl entry (List.mem_reverse.mp he)⟩, rfl⟩

theorem find?_insertAll_eq_none {inserts : List (String × Bytes)} {key : String} :
    (empty.insertAll inserts).find? key = none ↔ ∀ entry ∈ inserts, ClassName.internal entry.1 ≠ key := by
  have he : empty.find? key = none := rfl
  simp [find?_insertAll, he]

theorem mem_keys_insertAll {key : String} : ∀ {inserts : List (String × Bytes)} {r : InMemory},
    key ∈ (r.insertAll inserts).keys ↔ key ∈ inserts.map (ClassName.internal ·.1) ∨ key ∈ r.keys
  | [], r => by simp [insertAll]
  | entry :: inserts, r => by
    rw [insertAll_cons, mem_keys_insertAll, mem_keys_insert, List.map_cons, List.mem_cons, eq_comm, or_left_comm,
      or_assoc]

theorem nodup_keys_insertAll : ∀ (inserts : List (String × Bytes)) {r : InMemory}, r.keys.Nodup →
    (r.insertAll inserts).keys.Nodup
  | [], _, h => h
  | entry :: inserts, _, h => nodup_keys_insertAll inserts (nodup_keys_insert h entry.1 entry.2)

/-- After a row of insertions there are as many classes as were inserted, whatever the spellings. -/
theorem size_insertAll (inserts : List (String × Bytes)) :
    (empty.insertAll inserts).size = (inserts.map (ClassName.internal ·.1)).toFinset.card := by
  have hkeys : (empty.insertAll inserts).keys.toFinset = (inserts.map (ClassName.internal ·.1)).toFinset := by
    ext key
    rw [List.mem_toFinset, List.mem_toFinset, mem_keys_insertAll, or_iff_left]
    exact List.not_mem_nil
  have hnodup : (empty.insertAll inserts).keys.Nodup := nodup_keys_insertAll inserts List.nodup_nil
  rw [← hkeys, List.toFinset_card_of_nodup hnodup, keys, List.length_map, size]

/-! ## Lookups -/

section Lookups

variable {r : InMemory} {name : String}

theorem lookup_outcome : (r.lookup name).outcome = match r.find? (ClassName.internal name) with
    | none => .error (.classNotFound name)
    | some b => ClassFile.parseFrom (ClassName.internal name) b := by
  unfold lookup
  split <;> simp only [Traced.ofExcept, *]

theorem parseFrom_eq_error_iff {origin : String} {b : Bytes} {e : AccessError} :
    ClassFile.parseFrom origin b = .error e ↔
      ∃ cause, ClassFile.parse b = .error cause ∧ e = .internal ⟨s!"could not parse {origin}", [cause.message]⟩ := by
  simp only [eq_comm (a := e)]
  exact Outcome.mapError_eq_error

/-- A class is not found exactly if nothing is kept under its internal name. -/
theorem lookup_eq_classNotFound_iff {n : String} : (r.lookup name).outcome = .error (.classNotFound n) ↔
    n = name ∧ r.find? (ClassName.internal name) = none := by
  rw [lookup_outcome]
  cases r.find? (ClassName.internal name) with
  | none => simp [eq_comm]
  | some b => simp [parseFrom_eq_error_iff]

theorem lookup_eq_ok_iff {c : ClassFile} : (r.lookup name).outcome = .ok c ↔
    ∃ b, r.find? (ClassName.internal name) = some b ∧ ClassFile.parse b = .ok c := by
  rw [lookup_outcome]
  cases r.find? (ClassName.internal name) with
  | none => simp
  | some b => simp [ClassFile.parseFrom, Outcome.mapError_eq_ok]

/-- What is kept and is no class file fails a lookup with the internal name and the cause. -/
theorem lookup_eq_internal_iff {report : Report} : (r.lookup name).outcome = .error (.internal report) ↔
    ∃ b cause, r.find? (ClassName.internal name) = some b ∧ ClassFile.parse b = .error cause ∧
      report = ⟨s!"could not parse {ClassName.internal name}", [cause.message]⟩ := by
  rw [lookup_outcome]
  cases r.find? (ClassName.internal name) with
  | none => simp
  | some b => simp [parseFrom_eq_error_iff]

theorem lookup_ne_unreadable {path reason : String} :
    (r.lookup name).outcome ≠ .error (.unreadable path reason) := by
  rw [lookup_outcome]
  cases r.find? (ClassName.internal name) with
  | none => simp
  | some b => simp [parseFrom_eq_error_iff]

end Lookups

/-- **Lookups after any row of insertions.** The class is not found exactly if none was inserted under a name of the same
internal form, and the failure has the name as it was given. Otherwise the bytes inserted last under such a name are
parsed: the lookup answers the class in them, or the internal name and what is wrong with them, and it fails in no other
way. Names have one internal form exactly if they differ in separators alone, and there are as many classes as internal
forms were inserted. -/
theorem lookup_insertAll (inserts : List (String × Bytes)) (name : String) :
    (∀ n, ((empty.insertAll inserts).lookup name).outcome = .error (.classNotFound n) ↔
      n = name ∧ ∀ entry ∈ inserts, ClassName.internal entry.1 ≠ ClassName.internal name) ∧
    (∀ c, ((empty.insertAll inserts).lookup name).outcome = .ok c ↔
      ∃ b, Latest inserts name b ∧ ClassFile.parse b = .ok c) ∧
    (∀ report, ((empty.insertAll inserts).lookup name).outcome = .error (.internal report) ↔
      ∃ b cause, Latest inserts name b ∧ ClassFile.parse b = .error cause ∧
        report = ⟨s!"could not parse {ClassName.internal name}", [cause.message]⟩) ∧
    (∀ path reason, ((empty.insertAll inserts).lookup name).outcome ≠ .error (.unreadable path reason)) ∧
    (∀ n, ClassName.internal n = ClassName.internal name ↔ List.Forall₂ ClassName.SameChar n.toList name.toList) ∧
    (empty.insertAll inserts).size = (inserts.map (ClassName.internal ·.1)).toFinset.card := by
  refine ⟨fun n => ?_, fun c => ?_, fun report => ?_, fun _ _ => lookup_ne_unreadable,
    fun _ => ClassName.internal_eq_iff, size_insertAll inserts⟩
  · rw [lookup_eq_classNotFound_iff, find?_insertAll_eq_none]
  · simp only [lookup_eq_ok_iff, find?_insertAll_eq_some]
  · simp only [lookup_eq_internal_iff, find?_insertAll_eq_some]

/-- Two spellings of one name and another name, the first one inserted again. -/
def respelledInserts : List (String × Bytes) := [("a.b.C", [0xca]), ("a/b/C", []), ("D", [0xca]), ("a/b.C", [0xca, 0xfe])]

/-- The bytes inserted last count under a spelling that none was inserted under. -/
theorem lookup_respelledInserts :
    ((empty.insertAll respelledInserts).lookup "a.b/C").outcome =
      .error (.internal ⟨"could not parse a/b/C", ["out of bytes"]⟩) ∧
    ((empty.insertAll respelledInserts).lookup "a.b").outcome = .error (.classNotFound "a.b") ∧
    (empty.insertAll respelledInserts).size = 2 := by
  obtain ⟨-, -, hfails, -, -, hsize⟩ := lookup_insertAll respelledInserts "a.b/C"
  obtain ⟨hnone, -⟩ := lookup_insertAll respelledInserts "a.b"
  have hlatest : Latest respelledInserts "a.b/C" [0xca, 0xfe] :=
    ⟨[("a.b.C", [0xca]), ("a/b/C", []), ("D", [0xca])], "a/b.C", [], rfl, by decide, nofun⟩
  refine ⟨(hfails _).mpr ⟨_, .shortage .word, hlatest, rfl, by decide⟩, (hnone _).mpr ⟨rfl, by decide⟩, ?_⟩
  rw [hsize]
  decide

end InMemory
end JvmAccessors
