import JvmAccessors.Access.Basic

/-!
# Accessors and maps of them

An accessor is a method that makes one field access. The accessors of a class are kept in an `AccessorMap`, one for each
method name, in ascending order of the names; the order belongs to the type, so that two maps with the same accessors
are equal. Main statements: an insertion keeps the order (`sorted_insertInto`), shows under its own name and nowhere
else (`find?_insert`), and tells which accessor it displaced (`snd_insert`).
-/

namespace JvmAccessors

/-- A method that makes one field access. -/
structure Accessor where
  name : String
  signature : String
  field : FieldRef
  direction : Direction
  deriving DecidableEq, Repr

/-- An accessor, as output shows it. -/
def Accessor.text (a : Accessor) : String := s!"{a.name} {a.signature} -> {a.direction.text} {a.field.text}"

/-- Ascending order of method names. -/
def Accessor.Sorted (as : List Accessor) : Prop := as.Pairwise fun a b => a.name < b.name

/-- The accessors of a class, at most one for a method name. -/
structure AccessorMap where
  accessors : List Accessor
  sorted : Accessor.Sorted accessors
  deriving DecidableEq

namespace AccessorMap

/-- The map without accessors. -/
def empty : AccessorMap := ⟨[], List.Pairwise.nil⟩

/-- How many accessors a map has. -/
def size (m : AccessorMap) : Nat := m.accessors.length

/-- Whether a map has no accessors. -/
def isEmpty (m : AccessorMap) : Bool := m.accessors.isEmpty

/-- The accessor with a method name. -/
def find? (m : AccessorMap) (name : String) : Option Accessor := m.accessors.find? (·.name = name)

/-- Whether an accessor has a method name. -/
def contains (m : AccessorMap) (name : String) : Bool := (m.find? name).isSome

/-- A sorted list with one more accessor, and the one of the same name that gives way to it, if there is one. -/
def insertInto (a : Accessor) : List Accessor → List Accessor × Option Accessor
  | [] => ([a], none)
  | b :: rest =>
    if a.name < b.name then (a :: b :: rest, none)
    else if a.name = b.name then (a :: rest, some b)
    else
      let (rest, displaced) := insertInto a rest
      (b :: rest, displaced)

/-! ## Insertion keeps the order -/

/-- What an insertion yields is the new accessor or was there before. -/
theorem mem_insertInto {a x : Accessor} : ∀ {bs : List Accessor}, x ∈ (insertInto a bs).1 → x = a ∨ x ∈ bs
  | [], h => by simpa [insertInto] using h
  | b :: bs, h => by
    unfold insertInto at h
    split at h
    · simpa using h
    · split at h
      · rcases List.mem_cons.mp h with h | h
        · exact .inl h
        · exact .inr (List.mem_cons_of_mem _ h)
      · rcases List.mem_cons.mp h with h | h
        · exact .inr (h ▸ List.mem_cons_self)
        · rcases mem_insertInto h with h | h
          · exact .inl h
          · exact .inr (List.mem_cons_of_mem _ h)

/-- Names that are neither less nor equal are greater. -/
theorem name_lt_of_not {a b : String} (hl : ¬ a < b) (he : ¬ a = b) : b < a :=
  Decidable.byContradiction fun hb => he (String.le_antisymm (String.not_lt.mp hb) (String.not_lt.mp hl))

/-- An insertion keeps the order. -/
theorem sorted_insertInto (a : Accessor) :
    ∀ {bs : List Accessor}, Accessor.Sorted bs → Accessor.Sorted (insertInto a bs).1
  | [], _ => List.pairwise_singleton _ _
  | b :: bs, h => by
    have ⟨hb, hbs⟩ := List.pairwise_cons.mp h
    unfold insertInto
    split
    · rename_i hab
      refine List.pairwise_cons.mpr ⟨fun x hx => ?_, h⟩
      rcases List.mem_cons.mp hx with rfl | hx
      · exact hab
      · exact String.lt_trans hab (hb x hx)
    · rename_i hab
      split
      · rename_i he
        exact List.pairwise_cons.mpr ⟨fun x hx => he ▸ hb x hx, hbs⟩
      · rename_i he
        refine List.pairwise_cons.mpr ⟨fun x hx => ?_, sorted_insertInto a hbs⟩
        rcases mem_insertInto hx with rfl | hx
        · exact name_lt_of_not hab he
        · exact hb x hx

/-- The map with one more accessor, and the one of the same name that gives way to it, if there is one. -/
def insert (m : AccessorMap) (a : Accessor) : AccessorMap × Option Accessor :=
  let r := insertInto a m.accessors
  (⟨r.1, sorted_insertInto a m.sorted⟩, r.2)

/-! ## What a map answers -/

/-- A map has under a name the accessor of that name, if it has one. -/
theorem find?_eq_some_iff {m : AccessorMap} {name : String} {a : Accessor} :
    m.find? name = some a ↔ a ∈ m.accessors ∧ a.name = name := by
  constructor
  · intro h
    exact ⟨List.mem_of_find?_eq_some h, by simpa using List.find?_some h⟩
  · rintro ⟨ha, rfl⟩
    obtain ⟨before, after, hm⟩ := List.append_of_mem ha
    refine List.find?_eq_some_iff_append.mpr ⟨decide_eq_true rfl, before, after, hm, fun b hb => ?_⟩
    have hs := m.sorted
    rw [Accessor.Sorted, hm] at hs
    have hlt : b.name < a.name := (List.pairwise_append.mp hs).2.2 b hb a List.mem_cons_self
    have hne : b.name ≠ a.name := fun he => String.lt_irrefl _ (he ▸ hlt)
    simp [hne]

/-- After an insertion the new accessor is found under its name, and what was there before under any other. -/
theorem find?_insertInto (a : Accessor) (name : String) : ∀ bs : List Accessor,
    (insertInto a bs).1.find? (·.name = name) = if a.name = name then some a else bs.find? (·.name = name)
  | [] => by by_cases h : a.name = name <;> simp [insertInto, h]
  | b :: bs => by
    unfold insertInto
    split
    · by_cases h : a.name = name <;> simp [h]
    · split
      · rename_i he
        by_cases h : a.name = name
        · simp [h]
        · simp [h, he ▸ h]
      · rename_i he
        by_cases hb : b.name = name
        · have ha : ¬ a.name = name := fun ha => he (ha.trans hb.symm)
          simp [hb, ha]
        · simp [hb, find?_insertInto a name bs]

/-- An accessor gives way to a new one exactly if it has the same name. -/
theorem snd_insertInto (a : Accessor) : ∀ {bs : List Accessor}, Accessor.Sorted bs →
    (insertInto a bs).2 = bs.find? (·.name = a.name)
  | [], _ => rfl
  | b :: bs, h => by
    have ⟨hb, hbs⟩ := List.pairwise_cons.mp h
    unfold insertInto
    split
    · rename_i hab
      symm
      rw [List.find?_eq_none]
      intro x hx he
      have hx' : a.name < x.name := by
        rcases List.mem_cons.mp hx with rfl | hx
        · exact hab
        · exact String.lt_trans hab (hb x hx)
      simp only [decide_eq_true_eq] at he
      exact String.lt_irrefl _ (he ▸ hx')
    · split
      · rename_i he
        simp [he]
      · rename_i he
        have he' : ¬ b.name = a.name := fun h => he h.symm
        simp [he', snd_insertInto a hbs]

/-- After an insertion the new accessor is found under its name, and what was there before under any other. -/
theorem find?_insert (m : AccessorMap) (a : Accessor) (name : String) :
    (m.insert a).1.find? name = if a.name = name then some a else m.find? name :=
  find?_insertInto a name m.accessors

/-- An accessor gives way to a new one exactly if it has the same name. -/
theorem snd_insert (m : AccessorMap) (a : Accessor) : (m.insert a).2 = m.find? a.name :=
  snd_insertInto a m.sorted

end AccessorMap
end JvmAccessors
