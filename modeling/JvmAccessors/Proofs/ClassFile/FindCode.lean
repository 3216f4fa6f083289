import JvmAccessors.ClassFile.Attribute
import JvmAccessors.Proofs.Outcome

/-!
# The code in a table of attributes

The search for the code passes over attributes with other names (`findCode_append`) and ends at the first attribute
whose name cannot be had or is `Code`; the outcome is what this attribute alone leads to (`findCode_append_of_stops`).
So code is found exactly if the first attribute that is named `Code` holds it (`findCode_eq_some_iff`). Main statement:
the shortest front of the table that ends in such an attribute decides, and neither what stands behind it nor attributes
with other names before it matter (`findCode_decided`).
-/

namespace JvmAccessors
namespace Attribute

/-- An attribute that has a name, and that is not `Code`. -/
def NotCode (p : Pool) (a : Attribute) : Prop := ∃ name, p.text a.name = .ok name ∧ name ≠ "Code"

/-- The first attribute of a table that is named `Code` holds this code, and those before it have other names. -/
def HoldsCode (p : Pool) (table : List Attribute) (code : Code) : Prop :=
  ∃ before a after, table = before ++ a :: after ∧ (∀ b ∈ before, NotCode p b) ∧ p.text a.name = .ok "Code" ∧
    Code.decode a.content = .ok code

/-- An attribute at which the search ends: its name cannot be had, or is `Code`. -/
def Stops (p : Pool) (a : Attribute) : Prop := (∃ e, p.text a.name = .error e) ∨ p.text a.name = .ok "Code"

/-- **The attribute that decides.** Of the fronts of a table that end in an attribute at which the search ends, the
shortest is `front` and then `a`. -/
structure Decides (p : Pool) (table front : List Attribute) (a : Attribute) : Prop where
  begins : front ++ [a] <+: table
  stops : Stops p a
  shortest : ∀ front' a', front' ++ [a'] <+: table → Stops p a' → front.length ≤ front'.length

variable {p : Pool} {a : Attribute} {table front : List Attribute}

theorem notCode_iff_not_stops : NotCode p a ↔ ¬ Stops p a := by
  unfold NotCode Stops
  cases p.text a.name <;> simp

/-! ## The search in turn -/

theorem findCode_append {before : List Attribute} (h : ∀ b ∈ before, NotCode p b) (rest : List Attribute) :
    findCode p (before ++ rest) = findCode p rest := by
  induction before with
  | nil => rfl
  | cons b before ih =>
    obtain ⟨⟨name, hb, hne⟩, h⟩ := List.forall_mem_cons.mp h
    rw [List.cons_append, findCode, hb]
    simp only [if_neg hne]
    exact ih h

theorem findCode_cons_unnamed {e : TextError} (h : p.text a.name = .error e) (rest : List Attribute) :
    findCode p (a :: rest) = .error (.name e) := by
  rw [findCode, h]

theorem findCode_cons_code (h : p.text a.name = .ok "Code") (rest : List Attribute) :
    findCode p (a :: rest) = ((Code.decode a.content).map some).mapError .content := by
  rw [findCode, h]
  simp only [if_pos]
  cases Code.decode a.content <;> rfl

/-- What an attribute at which the search ends leads to, whatever follows it. -/
theorem findCode_cons_of_stops (h : Stops p a) (rest : List Attribute) : findCode p (a :: rest) = findCode p [a] := by
  obtain ⟨e, he⟩ | hc := h
  · rw [findCode_cons_unnamed he, findCode_cons_unnamed he]
  · rw [findCode_cons_code hc, findCode_cons_code hc]

theorem findCode_append_of_stops (hf : ∀ b ∈ front, NotCode p b) (ha : Stops p a) (after : List Attribute) :
    findCode p (front ++ a :: after) = findCode p [a] := by
  rw [findCode_append hf, findCode_cons_of_stops ha]

theorem findCode_singleton_ne_none (ha : Stops p a) : findCode p [a] ≠ .ok none := by
  obtain ⟨e, he⟩ | hc := ha
  · rw [findCode_cons_unnamed he]
    exact nofun
  · rw [findCode_cons_code hc, Ne, Outcome.mapError_eq_ok, Outcome.map_eq_ok]
    exact nofun

/-! ## The attribute that decides -/

/-- Either the search passes over a whole table, or there is a first attribute at which it ends. -/
theorem forall_notCode_or_exists_split (p : Pool) : ∀ table : List Attribute, (∀ a ∈ table, NotCode p a) ∨
    ∃ front a after, table = front ++ a :: after ∧ (∀ b ∈ front, NotCode p b) ∧ Stops p a
  | [] => .inl nofun
  | b :: table => by
    by_cases hb : Stops p b
    · exact .inr ⟨[], b, table, rfl, nofun, hb⟩
    · have hn : NotCode p b := notCode_iff_not_stops.mpr hb
      obtain h | ⟨front, a, after, rfl, hf, ha⟩ := forall_notCode_or_exists_split p table
      · exact .inl (List.forall_mem_cons.mpr ⟨hn, h⟩)
      · exact .inr ⟨b :: front, a, after, rfl, List.forall_mem_cons.mpr ⟨hn, hf⟩, ha⟩

/-- The attribute that decides is the one that has no other such attribute before it. -/
theorem decides_iff : Decides p table front a ↔
    (∃ after, table = front ++ a :: after) ∧ (∀ b ∈ front, NotCode p b) ∧ Stops p a := by
  constructor
  · intro h
    obtain ⟨after, rfl⟩ := h.begins
    refine ⟨⟨after, by rw [List.append_assoc, List.singleton_append]⟩, fun b hb => ?_, h.stops⟩
    rw [notCode_iff_not_stops]
    intro hs
    obtain ⟨before, between, rfl⟩ := List.append_of_mem hb
    have hle := h.shortest before b ⟨between ++ a :: after, by simp⟩ hs
    rw [List.length_append, List.length_cons] at hle
    omega
  · rintro ⟨⟨after, rfl⟩, hf, ha⟩
    refine ⟨⟨after, by rw [List.append_assoc, List.singleton_append]⟩, ha, fun front' a' hp hs => ?_⟩
    apply Nat.le_of_not_lt
    intro hlt
    -- A shorter front lies in `front`, where the search does not end.
    have hwithin : front' ++ [a'] <+: front := by
      refine List.prefix_of_prefix_length_le hp (List.prefix_append front (a :: after)) ?_
      rw [List.length_append, List.length_singleton]
      omega
    have hmem : a' ∈ front := hwithin.subset (List.mem_append_right _ List.mem_cons_self)
    exact notCode_iff_not_stops.mp (hf a' hmem) hs

theorem exists_decides (h : ∃ a ∈ table, Stops p a) : ∃ front a, Decides p table front a := by
  obtain hn | ⟨front, a, after, ht, hf, ha⟩ := forall_notCode_or_exists_split p table
  · obtain ⟨a, ha, hs⟩ := h
    exact absurd hs (notCode_iff_not_stops.mp (hn a ha))
  · exact ⟨front, a, decides_iff.mpr ⟨⟨after, ht⟩, hf, ha⟩⟩

/-- One attribute decides. -/
theorem Decides.unique (h : Decides p table front a) {front' : List Attribute} {a' : Attribute}
    (h' : Decides p table front' a') : front' = front ∧ a' = a := by
  have hlen : (front' ++ [a']).length = (front ++ [a]).length := by
    have hle := h.shortest front' a' h'.begins h'.stops
    have hge := h'.shortest front a h.begins h.stops
    rw [List.length_append, List.length_append, List.length_singleton, List.length_singleton]
    omega
  have hends : front' ++ [a'] = front ++ [a] :=
    (List.prefix_of_prefix_length_le h'.begins h.begins (Nat.le_of_eq hlen)).eq_of_length hlen
  obtain ⟨hfront, hlast⟩ := List.append_inj' hends rfl
  exact ⟨hfront, List.singleton_inj.mp hlast⟩

/-! ## What the search finds -/

/-- The search finds nothing exactly if it passes over the whole table. -/
theorem findCode_eq_none_iff : findCode p table = .ok none ↔ ∀ a ∈ table, NotCode p a := by
  constructor
  · intro h
    obtain hn | ⟨front, a, after, rfl, hf, ha⟩ := forall_notCode_or_exists_split p table
    · exact hn
    · rw [findCode_append_of_stops hf ha] at h
      exact absurd h (findCode_singleton_ne_none ha)
  · intro h
    have hall := findCode_append h []
    rwa [List.append_nil] at hall

/-- The search finds the code that the first attribute named `Code` holds. -/
theorem findCode_eq_some_iff {code : Code} : findCode p table = .ok (some code) ↔ HoldsCode p table code := by
  constructor
  · intro h
    obtain hn | ⟨front, a, after, rfl, hf, ha⟩ := forall_notCode_or_exists_split p table
    · rw [findCode_eq_none_iff.mpr hn] at h
      cases h
    rw [findCode_append_of_stops hf ha] at h
    obtain ⟨e, he⟩ | hc := ha
    · rw [findCode_cons_unnamed he] at h
      cases h
    · rw [findCode_cons_code hc, Outcome.mapError_eq_ok, Outcome.map_eq_ok] at h
      obtain ⟨_, hd, hs⟩ := h
      cases hs
      exact ⟨front, a, after, rfl, hf, hc, hd⟩
  · rintro ⟨before, a, after, rfl, hb, ha, hd⟩
    rw [findCode_append hb, findCode_cons_code ha, hd]
    rfl

/-- **What decides a search for code.** A search finds no code, and does not fail, exactly if every attribute of the
table has a name other than `Code`. Else there is one shortest front of the table that ends in an attribute whose name
cannot be had or is `Code`. If the name cannot be had, the search fails for this cause; if it is `Code`, the outcome is
that of decoding the content. Let anything else stand behind this attribute, and let attributes with names other than
`Code` be put in before it, in any places, or taken away: the outcome stays. -/
theorem findCode_decided (p : Pool) (table : List Attribute) :
    (findCode p table = .ok none ↔ ∀ a ∈ table, ¬ Stops p a) ∧
    ((∃ a ∈ table, Stops p a) → ∃ front a, Decides p table front a ∧
      ∀ front' a', Decides p table front' a' → front' = front ∧ a' = a) ∧
    ∀ front a, Decides p table front a →
      (∀ e, p.text a.name = .error e → findCode p table = .error (.name e)) ∧
      (p.text a.name = .ok "Code" → findCode p table = ((Code.decode a.content).map some).mapError .content) ∧
      ∀ front' after, (∀ b ∈ front', b ∈ front ∨ NotCode p b) →
        findCode p (front' ++ a :: after) = findCode p table := by
  refine ⟨?_, fun h => ?_, fun front a h => ?_⟩
  · simp only [findCode_eq_none_iff, notCode_iff_not_stops]
  · obtain ⟨front, a, hd⟩ := exists_decides h
    exact ⟨front, a, hd, fun _ _ => hd.unique⟩
  · obtain ⟨⟨after, rfl⟩, hf, ha⟩ := decides_iff.mp h
    rw [findCode_append_of_stops hf ha]
    refine ⟨fun e he => findCode_cons_unnamed he [], fun hc => findCode_cons_code hc [], fun front' after' hf' => ?_⟩
    have hpass : ∀ b ∈ front', NotCode p b := fun b hb => (hf' b hb).elim (hf b) id
    exact findCode_append_of_stops hpass ha after'

/-- A pool with the texts `Code` and `C`, and with bytes that are no text. -/
def threeNames : Pool :=
  ⟨#[.constant (.utf8 [0x43, 0x6f, 0x64, 0x65]), .constant (.utf8 [0x43]), .constant (.utf8 [0x00])]⟩

/-- The code that is a `return` alone, as an attribute. -/
def plainReturn : Attribute := ⟨1, [0, 1, 0, 1, 0, 0, 0, 1, 0xb1, 0, 0, 0, 0]⟩

/-- Content that is cut off is refused although a readable `Code` attribute follows; code is found although an attribute
without a name follows, and not if it comes first. -/
theorem findCode_threeNames :
    (Decides threeNames [⟨2, []⟩, ⟨1, [0x00]⟩, plainReturn] [⟨2, []⟩] ⟨1, [0x00]⟩ ∧
      findCode threeNames [⟨2, []⟩, ⟨1, [0x00]⟩, plainReturn] = .error (.content .word)) ∧
    (Decides threeNames [plainReturn] [] plainReturn ∧
      findCode threeNames [⟨2, [0x07]⟩, ⟨2, []⟩, plainReturn, ⟨3, []⟩, ⟨0, []⟩] =
        .ok (some ⟨1, 1, [0xb1], [], []⟩)) ∧
    (Decides threeNames [⟨3, []⟩, plainReturn] [] ⟨3, []⟩ ∧
      findCode threeNames [⟨3, []⟩, plainReturn] = .error (.name (.encoding (.rawNul 0)))) := by
  have hcode : threeNames.text 1 = .ok "Code" := rfl
  have hother : ∀ content, NotCode threeNames ⟨2, content⟩ := fun _ => ⟨"C", rfl, by decide⟩
  have hnone : threeNames.text 3 = .error (.encoding (.rawNul 0)) := rfl
  have hshort : Decides threeNames [⟨2, []⟩, ⟨1, [0x00]⟩, plainReturn] [⟨2, []⟩] ⟨1, [0x00]⟩ :=
    decides_iff.mpr ⟨⟨[plainReturn], rfl⟩, by simpa using hother [], .inr hcode⟩
  have hplain : Decides threeNames [plainReturn] [] plainReturn := decides_iff.mpr ⟨⟨[], rfl⟩, nofun, .inr hcode⟩
  have hunnamed : Decides threeNames [⟨3, []⟩, plainReturn] [] ⟨3, []⟩ :=
    decides_iff.mpr ⟨⟨[plainReturn], rfl⟩, nofun, .inl ⟨_, hnone⟩⟩
  refine ⟨⟨hshort, ?_⟩, ⟨hplain, ?_⟩, hunnamed, ?_⟩
  · obtain ⟨-, -, hdecided⟩ := findCode_decided threeNames [⟨2, []⟩, ⟨1, [0x00]⟩, plainReturn]
    exact (hdecided _ _ hshort).2.1 hcode
  · obtain ⟨-, -, hdecided⟩ := findCode_decided threeNames [plainReturn]
    obtain ⟨-, hfound, hkept⟩ := hdecided _ _ hplain
    have hmore : ∀ b ∈ ([⟨2, [0x07]⟩, ⟨2, []⟩] : List Attribute), b ∈ ([] : List Attribute) ∨ NotCode threeNames b := by
      simpa using ⟨hother [0x07], hother []⟩
    exact (hkept [⟨2, [0x07]⟩, ⟨2, []⟩] [⟨3, []⟩, ⟨0, []⟩] hmore).trans (hfound hcode)
  · obtain ⟨-, -, hdecided⟩ := findCode_decided threeNames [⟨3, []⟩, plainReturn]
    exact (hdecided _ _ hunnamed).1 _ hnone

end Attribute
end JvmAccessors
