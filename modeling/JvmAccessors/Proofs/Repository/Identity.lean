import JvmAccessors.Proofs.Accessor.Qualification
import JvmAccessors.Proofs.Repository.Session

/-!
# Which calls are answered with one and the same map

A cache numbers the maps that it keeps (`Cache.Numbered`), so that no two of them have the same identity unless both are
without accessors (`Cache.Numbered.eq_or_isEmpty`). A fetch keeps this, since it numbers a new map by how many there are,
and so does every session (`Session.Reachable.numbered`). Main statement: two calls of a session are answered with one
and the same map exactly if their names have the same internal form or both maps are empty
(`Session.Reachable.same_map_iff`).
-/

namespace JvmAccessors

/-- Two maps that are kept are the same if both are empty, or if they are kept under the same number. -/
theorem SharedMap.identity_ofMap_eq_iff {n n' : Nat} {m m' : AccessorMap} :
    (ofMap n m).identity = (ofMap n' m').identity ↔
      m.isEmpty = true ∧ m'.isEmpty = true ∨ m.isEmpty = false ∧ m'.isEmpty = false ∧ n = n' := by
  unfold ofMap
  cases m.isEmpty <;> cases m'.isEmpty <;> simp

theorem AccessorMap.eq_empty_of_isEmpty {m : AccessorMap} (h : m.isEmpty = true) : m = empty := by
  obtain ⟨accessors, sorted⟩ := m
  cases List.isEmpty_iff.mp h
  rfl

namespace Cache

/-! ## The numbers of the maps that a cache keeps -/

/-- Each map in a row of entries, newest first, is numbered by how many are older. -/
def Numbered : List (String × SharedMap) → Prop
  | [] => True
  | entry :: older => entry.2 = .ofMap older.length entry.2.map ∧ Numbered older

theorem Numbered.exists_number {entries : List (String × SharedMap)} (h : Numbered entries) :
    ∀ entry ∈ entries, ∃ n < entries.length, entry.2 = .ofMap n entry.2.map := by
  induction entries with
  | nil => intro _ hm; cases hm
  | cons newest older ih =>
    intro entry hm
    rcases List.mem_cons.mp hm with rfl | hm
    · exact ⟨older.length, Nat.lt_succ_self _, h.1⟩
    · obtain ⟨n, hn, he⟩ := ih h.2 entry hm
      exact ⟨n, Nat.lt_succ_of_lt hn, he⟩

/-- The newest map has the identity of an older one only if both are empty. -/
theorem Numbered.isEmpty_of_newest {newest entry : String × SharedMap} {older : List (String × SharedMap)}
    (h : Numbered (newest :: older)) (hm : entry ∈ older) (hi : newest.2.identity = entry.2.identity) :
    newest.2.map.isEmpty = true ∧ entry.2.map.isEmpty = true := by
  obtain ⟨n, hn, he⟩ := h.2.exists_number entry hm
  rw [h.1, he, SharedMap.identity_ofMap_eq_iff] at hi
  rcases hi with hboth | ⟨-, -, hnum⟩
  · exact hboth
  · omega

/-- Two maps that a cache keeps have the same identity only if they are one entry or both empty. -/
theorem Numbered.eq_or_isEmpty {entries : List (String × SharedMap)} (h : Numbered entries) :
    ∀ entry ∈ entries, ∀ entry' ∈ entries, entry.2.identity = entry'.2.identity →
      entry = entry' ∨ entry.2.map.isEmpty = true ∧ entry'.2.map.isEmpty = true := by
  induction entries with
  | nil => intro _ hm; cases hm
  | cons newest older ih =>
    intro entry hm entry' hm' hi
    rcases List.mem_cons.mp hm with rfl | hold
    · rcases List.mem_cons.mp hm' with rfl | hold'
      · exact .inl rfl
      · exact .inr (h.isEmpty_of_newest hold' hi)
    · rcases List.mem_cons.mp hm' with rfl | hold'
      · exact .inr (h.isEmpty_of_newest hold hi.symm).symm
      · exact ih h.2 entry hold entry' hold' hi

variable {c : Cache}

/-- A fetch numbers the map that it keeps by how many there are. -/
theorem Numbered.fetch (h : Numbered c.entries) (lookup : Lookup) (start name : String) :
    Numbered (c.fetch lookup start name).cache.entries := by
  cases fetch_spec lookup start c name with
  | hit _ _ _ hc _ => rw [hc]; exact h
  | failed _ _ _ _ hc _ => rw [hc]; exact h
  | built m _ _ _ hc _ => rw [hc]; exact ⟨rfl, h⟩

theorem mem_of_find? {key : String} {shared : SharedMap} (h : c.find? key = some shared) :
    (key, shared) ∈ c.entries := by
  obtain ⟨⟨key', shared'⟩, hf, rfl⟩ := Option.map_eq_some_iff.mp h
  have hk : key' = key := by simpa using List.find?_some hf
  rw [← hk]
  exact List.mem_of_find?_eq_some hf

variable {key key' : String} {shared shared' : SharedMap}

/-- A map that a cache keeps is the one empty map exactly if it is empty. -/
theorem Numbered.identity_eq_sharedEmpty_iff (h : Numbered c.entries) (hk : c.find? key = some shared) :
    shared.identity = .sharedEmpty ↔ shared.map.isEmpty = true := by
  obtain ⟨n, -, he⟩ := h.exists_number _ (mem_of_find? hk)
  have he : shared = .ofMap n shared.map := he
  have hi := AccessorMap.identity_eq_sharedEmpty_iff n shared.map
  rwa [← he] at hi

theorem Numbered.eq_sharedEmpty (h : Numbered c.entries) (hk : c.find? key = some shared)
    (he : shared.map.isEmpty = true) : shared = ⟨.sharedEmpty, .empty⟩ := by
  have hi := (h.identity_eq_sharedEmpty_iff hk).mpr he
  have hm := AccessorMap.eq_empty_of_isEmpty he
  obtain ⟨identity, map⟩ := shared
  cases hi
  cases hm
  rfl

/-- What is kept under one name, or is empty, is one map. -/
theorem Numbered.eq_of_key_eq_or (h : Numbered c.entries) (hk : c.find? key = some shared)
    (hk' : c.find? key' = some shared')
    (hor : key = key' ∨ shared.map.isEmpty = true ∧ shared'.map.isEmpty = true) : shared = shared' := by
  rcases hor with rfl | ⟨he, he'⟩
  · exact Option.some.inj (hk.symm.trans hk')
  · rw [h.eq_sharedEmpty hk he, h.eq_sharedEmpty hk' he']

/-- Two maps that a cache keeps are one and the same exactly if they are kept under one name, or both empty. -/
theorem Numbered.identity_eq_iff (h : Numbered c.entries) (hk : c.find? key = some shared)
    (hk' : c.find? key' = some shared') : shared.identity = shared'.identity ↔
      key = key' ∨ shared.map.isEmpty = true ∧ shared'.map.isEmpty = true := by
  constructor
  · intro hi
    rcases h.eq_or_isEmpty _ (mem_of_find? hk) _ (mem_of_find? hk') hi with he | he
    · exact .inl (congrArg Prod.fst he)
    · exact .inr he
  · intro hor
    rw [h.eq_of_key_eq_or hk hk' hor]

end Cache

namespace Session

/-! ## Sessions -/

variable {start : String} {s : Session}

theorem Reachable.numbered (h : Reachable start s) : Cache.Numbered s.cache.entries := by
  induction h with
  | empty => trivial
  | get call _ ih => exact ih.fetch call.lookup start call.name

/-- What a call was answered with is kept. -/
theorem Reachable.find?_of_mem (h : Reachable start s) {g : Call × Fetched AccessError} (hg : g ∈ s.gets) {shared : SharedMap}
    (ho : g.2.result.outcome = .ok shared) : s.cache.find? g.1.key = some shared :=
  (h.invariant.kept _ _).mpr ⟨g, hg, rfl, ho⟩

/-- **When two calls are answered with one and the same map.** Whatever the repository answers to each call of a session,
two answers are the same map exactly if the names that were asked for have the same internal form, or if both are
empty. An answer is the one empty map exactly if it is empty, and answers that are the same map hold the same
accessors. -/
theorem Reachable.same_map_iff (h : Reachable start s) :
    (∀ g ∈ s.gets, ∀ g' ∈ s.gets, ∀ shared shared', g.2.result.outcome = .ok shared →
      g'.2.result.outcome = .ok shared' →
      (shared.identity = shared'.identity ↔ ClassName.internal g.1.name = ClassName.internal g'.1.name ∨
        shared.map.isEmpty = true ∧ shared'.map.isEmpty = true) ∧
      (shared.identity = shared'.identity → shared = shared')) ∧
    ∀ g ∈ s.gets, ∀ shared, g.2.result.outcome = .ok shared →
      (shared.identity = .sharedEmpty ↔ shared.map.isEmpty = true) := by
  have hn := h.numbered
  constructor
  · intro g hg g' hg' shared shared' ho ho'
    have hk := h.find?_of_mem hg ho
    have hk' := h.find?_of_mem hg' ho'
    refine ⟨hn.identity_eq_iff hk hk', fun hi => ?_⟩
    exact hn.eq_of_key_eq_or hk hk' ((hn.identity_eq_iff hk hk').mp hi)
  · intro g hg shared ho
    exact hn.identity_eq_sharedEmpty_iff (h.find?_of_mem hg ho)

/-- A call while the repository has a class that reads its field `x`. -/
def callWithReader (name : String) : Call := ⟨name, fun _ => .ofExcept (.ok AccessorMap.overloadedClass)⟩

/-- Two classes with the same accessors have equal maps that are not one and the same; for another spelling of the first
name the answer is the map of the first, also after the class is gone. -/
theorem same_accessors_apart :
    let s := ((Session.empty.get "access$" (callWithReader "p.C")).get "access$" (callWithReader "q.C")).get "access$"
      (callWithout "p/C")
    ∃ first second third, (s.gets.map fun g => (g.1.name, g.2.result.outcome.toOption)) =
        [("p.C", some first), ("q.C", some second), ("p/C", some third)] ∧
      first.map = second.map ∧ first.identity ≠ second.identity ∧ third.identity = first.identity := by
  intro s
  let m : AccessorMap := (AccessorMap.empty.insert AccessorMap.readerOfX).1
  have hs : Reachable "access$" s := .get _ (.get _ (.get _ .empty))
  have hgets : (s.gets.map fun g => (g.1.name, g.2.result.outcome.toOption)) =
      [("p.C", some (.ofMap 0 m)), ("q.C", some (.ofMap 1 m)), ("p/C", some (.ofMap 0 m))] := by decide +kernel
  have hmem : ∀ answer ∈ [("p.C", some (.ofMap 0 m)), ("q.C", some (.ofMap 1 m)), ("p/C", some (.ofMap 0 m))],
      ∃ g ∈ s.gets, g.1.name = answer.1 ∧ g.2.result.outcome.toOption = answer.2 := by
    intro answer ha
    rw [← hgets] at ha
    obtain ⟨g, hg, rfl⟩ := List.mem_map.mp ha
    exact ⟨g, hg, rfl, rfl⟩
  obtain ⟨g, hg, hn, ho⟩ := hmem ("p.C", some (.ofMap 0 m)) (by simp)
  obtain ⟨g', hg', hn', ho'⟩ := hmem ("q.C", some (.ofMap 1 m)) (by simp)
  obtain ⟨g'', hg'', hn'', ho''⟩ := hmem ("p/C", some (.ofMap 0 m)) (by simp)
  have ho := Outcome.toOption_eq_some.mp ho
  have ho' := Outcome.toOption_eq_some.mp ho'
  have ho'' := Outcome.toOption_eq_some.mp ho''
  refine ⟨_, _, _, hgets, rfl, ?_, ?_⟩
  · rw [Ne, ((hs.same_map_iff.1 g hg g' hg' _ _ ho ho').1), hn, hn']
    decide +kernel
  · rw [((hs.same_map_iff.1 g'' hg'' g hg _ _ ho'' ho).1), hn, hn'']
    decide +kernel

end Session
end JvmAccessors
