import JvmAccessors.Proofs.Accessor.Restriction
import JvmAccessors.Proofs.Text.Utf8
import Mathlib.Data.Finset.Card

/-!
# Maps as hash tables that are sorted on demand

The accessors of a class can be kept in a hash table (`AccessorTable`), which shows them in no order, and be sorted by
the UTF-8 bytes of their names when they are listed (`Accessor.byName`). A table and a map that find the same accessors
(`AccessorTable.Agrees`) still do so after the same insertion (`Agrees.insert`), so after the same row of insertions
(`agrees_insertAll`), and then all that can be asked of the one has the answer of the other: the accessor that gives way
(`Agrees.snd_insert`), the size (`Agrees.size_eq`), the sorted list in whatever order the table shows its accessors
(`Agrees.byName_eq`), and whether two are the same (`Agrees.same_iff`).

Main statement: a map is told by the accessors inserted last under their names, and listed in the one ascending order of
these (`AccessorMap.insertAll_latest_by_name`).
-/

namespace JvmAccessors

/-! ## Order of names -/

namespace Accessor

/-- Of accessors that come one after the other, the last one with a name. -/
def Latest (as : List Accessor) (name : String) (a : Accessor) : Prop :=
  a.name = name ∧ ∃ earlier later, as = earlier ++ a :: later ∧ ∀ b ∈ later, b.name ≠ name

/-- Accessors in ascending order of the UTF-8 bytes of their names. -/
def byName (as : List Accessor) : List Accessor :=
  as.mergeSort fun a b => decide (Utf8.bytes a.name ≤ Utf8.bytes b.name)

/-- Names ascend in characters exactly if they ascend in UTF-8 bytes. -/
theorem sorted_iff_bytes {as : List Accessor} :
    Sorted as ↔ as.Pairwise fun a b => Utf8.bytes a.name < Utf8.bytes b.name := by
  simp only [Sorted, Utf8.lt_iff]

/-- A sorted list has one accessor for a name. -/
theorem Sorted.eq_of_name_eq {as : List Accessor} {a b : Accessor} (h : Sorted as) (ha : a ∈ as) (hb : b ∈ as)
    (hn : a.name = b.name) : a = b := by
  have hfa : (AccessorMap.mk as h).find? b.name = some a := AccessorMap.find?_eq_some_iff.mpr ⟨ha, hn⟩
  have hfb : (AccessorMap.mk as h).find? b.name = some b := AccessorMap.find?_eq_some_iff.mpr ⟨hb, rfl⟩
  exact Option.some.inj (hfa.symm.trans hfb)

theorem Sorted.nodup_names {as : List Accessor} (h : Sorted as) : (as.map (·.name)).Nodup := by
  refine List.pairwise_map.mpr (h.imp fun hlt he => ?_)
  exact String.lt_irrefl _ (he ▸ hlt)

/-- Whatever order the accessors of a sorted list are in, sorting by name brings the list back. -/
theorem byName_eq_of_perm {listed as : List Accessor} (hp : listed.Perm as) (h : Sorted as) : byName listed = as := by
  have hperm : (byName listed).Perm as := (List.mergeSort_perm listed _).trans hp
  have hle : (byName listed).Pairwise fun a b => Utf8.bytes a.name ≤ Utf8.bytes b.name := by
    refine (List.pairwise_mergeSort ?_ ?_ listed).imp of_decide_eq_true
    · intro a b c hab hbc
      exact decide_eq_true (List.le_trans (of_decide_eq_true hab) (of_decide_eq_true hbc))
    · intro a b
      simpa using List.le_total (Utf8.bytes a.name) (Utf8.bytes b.name)
  refine hperm.eq_of_pairwise (fun a b ha hb hab hba => ?_) hle ((sorted_iff_bytes.mp h).imp List.le_of_lt)
  exact h.eq_of_name_eq (hperm.subset ha) hb (Utf8.bytes_inj.mp (List.le_antisymm hab hba))

end Accessor

/-! ## Tables -/

/-- The accessors of a class as a hash table keeps them, each under a name and in no order. -/
structure AccessorTable where
  entries : Std.HashMap String Accessor

namespace AccessorTable

/-- The table without accessors. -/
def empty : AccessorTable := ⟨∅⟩

/-- The accessor with a method name. -/
def find? (t : AccessorTable) (name : String) : Option Accessor := t.entries[name]?

/-- How many accessors a table has. -/
def size (t : AccessorTable) : Nat := t.entries.size

/-- The table with one more accessor, and what was there under its name. -/
def insert (t : AccessorTable) (a : Accessor) : AccessorTable × Option Accessor :=
  (⟨t.entries.insert a.name a⟩, t.find? a.name)

/-- The table with more accessors, inserted one after the other. -/
def insertAll (t : AccessorTable) (as : List Accessor) : AccessorTable := as.foldl (fun t a => (t.insert a).1) t

/-- The accessors of a table, in one of their orders. -/
def accessors (t : AccessorTable) : List Accessor := t.entries.toList.map (·.2)

/-- Whether two tables have as many accessors and the second has under each name what the first has. -/
def same (t t' : AccessorTable) : Bool := t.size == t'.size && t.entries.all fun name a => t'.find? name == some a

theorem same_eq_true_iff {t t' : AccessorTable} :
    t.same t' = true ↔ t.size = t'.size ∧ ∀ name a, t.find? name = some a → t'.find? name = some a := by
  simp only [same, Bool.and_eq_true, beq_iff_eq, ← Std.HashMap.all_toList, List.all_eq_true, Prod.forall,
    Std.HashMap.mem_toList_iff_getElem?_eq_some, find?]

/-! ## Tables that agree with maps -/

/-- A table and a map that find the same accessors. -/
def Agrees (t : AccessorTable) (m : AccessorMap) : Prop := ∀ name, t.find? name = m.find? name

theorem agrees_empty : Agrees empty .empty := fun _ => Std.HashMap.getElem?_empty

namespace Agrees

variable {t t' : AccessorTable} {m m' : AccessorMap}

theorem insert (h : Agrees t m) (a : Accessor) : Agrees (t.insert a).1 (m.insert a).1 := by
  intro name
  rw [AccessorMap.find?_insert, ← h name]
  show (t.entries.insert a.name a)[name]? = _
  simp only [Std.HashMap.getElem?_insert, beq_iff_eq, find?]

theorem snd_insert (h : Agrees t m) (a : Accessor) : (t.insert a).2 = (m.insert a).2 := by
  rw [AccessorMap.snd_insert, ← h a.name]
  rfl

theorem insertAll : ∀ (as : List Accessor) {t : AccessorTable} {m : AccessorMap}, Agrees t m →
    Agrees (t.insertAll as) (m.insertAll as)
  | [], _, _, h => h
  | a :: as, _, _, h => insertAll as (h.insert a)

/-- An accessor is kept under its name, and nowhere else. -/
theorem find?_eq_some_iff (h : Agrees t m) {name : String} {a : Accessor} :
    t.find? name = some a ↔ a ∈ m.accessors ∧ a.name = name := by
  rw [h, AccessorMap.find?_eq_some_iff]

theorem mem_accessors (h : Agrees t m) {a : Accessor} : a ∈ t.accessors ↔ a ∈ m.accessors := by
  simp only [accessors, List.mem_map, Prod.exists, Std.HashMap.mem_toList_iff_getElem?_eq_some]
  constructor
  · rintro ⟨name, b, hb, rfl⟩
    exact (h.find?_eq_some_iff.mp hb).1
  · intro ha
    exact ⟨a.name, a, h.find?_eq_some_iff.mpr ⟨ha, rfl⟩, rfl⟩

/-- Accessors under different names are different, as each is kept under its own. -/
theorem nodup_accessors (h : Agrees t m) : t.accessors.Nodup := by
  have hown : ∀ entry ∈ t.entries.toList, entry.2.name = entry.1 := fun entry he =>
    (h.find?_eq_some_iff.mp (Std.HashMap.mem_toList_iff_getElem?_eq_some.mp he)).2
  have hkeys : t.entries.toList.Pairwise fun p q => (p.1 == q.1) = false := Std.HashMap.distinct_keys_toList
  refine List.pairwise_map.mpr (hkeys.imp_of_mem fun {p q} hp hq hne he => ?_)
  have hnames : p.1 = q.1 := by rw [← hown p hp, ← hown q hq, he]
  exact beq_eq_false_iff_ne.mp hne hnames

/-- A table shows the accessors of the map, in some order. -/
theorem perm (h : Agrees t m) : t.accessors.Perm m.accessors :=
  (List.perm_ext_iff_of_nodup h.nodup_accessors m.sorted.nodup).mpr fun _ => h.mem_accessors

theorem size_eq (h : Agrees t m) : t.size = m.size := by
  rw [AccessorMap.size, ← h.perm.length_eq, accessors, List.length_map, Std.HashMap.length_toList, size]

/-- In whatever order a table shows its accessors, sorted by name they are those of the map. -/
theorem byName_eq (h : Agrees t m) {listed : List Accessor} (hl : listed.Perm t.accessors) :
    Accessor.byName listed = m.accessors :=
  Accessor.byName_eq_of_perm (hl.trans h.perm) m.sorted

/-- Tables are the same exactly if the maps are. -/
theorem same_iff (h : Agrees t m) (h' : Agrees t' m') : t.same t' = true ↔ m = m' := by
  rw [same_eq_true_iff]
  constructor
  · rintro ⟨hsize, hfind⟩
    have hsub : m.accessors ⊆ m'.accessors := fun a ha =>
      (h'.find?_eq_some_iff.mp (hfind a.name a (h.find?_eq_some_iff.mpr ⟨ha, rfl⟩))).1
    have hlen : m'.accessors.length ≤ m.accessors.length := by
      rw [h.size_eq, h'.size_eq] at hsize
      exact Nat.le_of_eq hsize.symm
    have hperm : m.accessors.Perm m'.accessors := (List.subperm_of_subset m.sorted.nodup hsub).perm_of_length_le hlen
    exact AccessorMap.ext_mem fun _ => hperm.mem_iff
  · rintro rfl
    exact ⟨h.size_eq.trans h'.size_eq.symm, fun name a ha => (h' name).trans ((h name).symm.trans ha)⟩

end Agrees

theorem agrees_insertAll (as : List Accessor) : Agrees (empty.insertAll as) (AccessorMap.empty.insertAll as) :=
  agrees_empty.insertAll as

end AccessorTable

/-! ## Rows of insertions -/

namespace AccessorMap

open Accessor

/-- A map has as many accessors as names were inserted. -/
theorem size_insertAll_empty (as : List Accessor) :
    (empty.insertAll as).size = (as.map (·.name)).toFinset.card := by
  have hnames : ((empty.insertAll as).accessors.map (·.name)).toFinset = (as.map (·.name)).toFinset := by
    ext name
    rw [List.mem_toFinset, List.mem_toFinset, List.mem_map, List.mem_map]
    refine Iff.trans ?_ exists_find?_insertAll_empty
    simp only [find?_eq_some_iff]
  rw [← hnames, List.toFinset_card_of_nodup (empty.insertAll as).sorted.nodup_names, List.length_map, size]

/-- The accessors of a map are the one ascending list of what is found in it. -/
theorem eq_accessors_iff {m : AccessorMap} {rows : List Accessor} :
    rows = m.accessors ↔ Sorted rows ∧ ∀ a, a ∈ rows ↔ m.find? a.name = some a := by
  have hmem : ∀ a, m.find? a.name = some a ↔ a ∈ m.accessors := fun a =>
    find?_eq_some_iff.trans (and_iff_left rfl)
  simp only [hmem]
  constructor
  · rintro rfl
    exact ⟨m.sorted, fun _ => Iff.rfl⟩
  · rintro ⟨hs, hrows⟩
    exact hs.ext m.sorted hrows

/-- **A map is told by the accessors inserted last under their names, and listed in the one ascending order of these.**
After any row of insertions into the empty map, an accessor is found under a name exactly if it is the last one inserted
with that name, and it is what a further insertion under that name displaces; there are as many accessors as names were
inserted. The list of the map is the one that has just these accessors in strictly ascending order of the UTF-8 bytes of
their names, which is that of their characters. A hash table with the same insertions keeps each accessor under its own
name, finds, displaces and counts the same, and shows the list of the map when its accessors are sorted by name, whatever
order it has them in. Two rows of insertions leave the same in it exactly if the sorted lists are the same. -/
theorem insertAll_latest_by_name (as : List Accessor) :
    (∀ name a, (empty.insertAll as).find? name = some a ↔ Latest as name a) ∧
    (∀ a b, ((empty.insertAll as).insert a).2 = some b ↔ Latest as a.name b) ∧
    (empty.insertAll as).size = (as.map (·.name)).toFinset.card ∧
    (∀ rows, rows = (empty.insertAll as).accessors ↔
      (rows.Pairwise fun a b => Utf8.bytes a.name < Utf8.bytes b.name) ∧ ∀ a, a ∈ rows ↔ Latest as a.name a) ∧
    (∀ rows, Sorted rows ↔ rows.Pairwise fun a b => Utf8.bytes a.name < Utf8.bytes b.name) ∧
    (∀ name, (AccessorTable.empty.insertAll as).find? name = (empty.insertAll as).find? name) ∧
    (∀ name a, (AccessorTable.empty.insertAll as).find? name = some a → a.name = name) ∧
    (∀ a, ((AccessorTable.empty.insertAll as).insert a).2 = ((empty.insertAll as).insert a).2) ∧
    (AccessorTable.empty.insertAll as).size = (empty.insertAll as).size ∧
    (∀ listed, listed.Perm (AccessorTable.empty.insertAll as).accessors →
      byName listed = (empty.insertAll as).accessors) ∧
    ∀ bs,
      ((AccessorTable.empty.insertAll as).same (AccessorTable.empty.insertAll bs) = true ↔
        empty.insertAll as = empty.insertAll bs) ∧
      ∀ listed listed', listed.Perm (AccessorTable.empty.insertAll as).accessors →
        listed'.Perm (AccessorTable.empty.insertAll bs).accessors →
        ((AccessorTable.empty.insertAll as).same (AccessorTable.empty.insertAll bs) = true ↔
          byName listed = byName listed') := by
  have hagree := AccessorTable.agrees_insertAll
  have hlatest : ∀ name a, (empty.insertAll as).find? name = some a ↔ Latest as name a := fun _ _ =>
    find?_insertAll_empty_eq_some
  refine ⟨hlatest, fun a b => ?_, size_insertAll_empty as, fun rows => ?_, fun _ => sorted_iff_bytes, hagree as,
    fun name a h => ((hagree as).find?_eq_some_iff.mp h).2, (hagree as).snd_insert, (hagree as).size_eq,
    fun _ => (hagree as).byName_eq, fun bs => ⟨(hagree as).same_iff (hagree bs), fun listed listed' hl hl' => ?_⟩⟩
  · rw [snd_insert, hlatest]
  · simp only [← sorted_iff_bytes, ← hlatest]
    exact eq_accessors_iff
  · rw [(hagree as).same_iff (hagree bs), (hagree as).byName_eq hl, (hagree bs).byName_eq hl']
    exact ext_accessors_iff

/-- Three insertions, the last of which displaces the first. In UTF-16 the names would be in the other order. -/
def displacingRow : List Accessor :=
  [{ readerOfStaticX "😀" with direction := .write }, readerOfStaticX "ｚ", readerOfStaticX "😀"]

/-- The last accessor is found, the two that are kept are sorted from either order, and without the first one the row leaves
the same. -/
theorem insertAll_displacingRow :
    (AccessorTable.empty.insertAll displacingRow).find? "😀" = some (readerOfStaticX "😀") ∧
    (empty.insertAll displacingRow).size = 2 ∧
    [readerOfStaticX "😀", readerOfStaticX "ｚ"].Perm (AccessorTable.empty.insertAll displacingRow).accessors ∧
    byName [readerOfStaticX "😀", readerOfStaticX "ｚ"] = [readerOfStaticX "ｚ", readerOfStaticX "😀"] ∧
    (AccessorTable.empty.insertAll displacingRow).same (AccessorTable.empty.insertAll displacingRow.tail) = true ∧
    ∀ listed, listed.Perm (AccessorTable.empty.insertAll displacingRow.tail).accessors →
      byName listed = [readerOfStaticX "ｚ", readerOfStaticX "😀"] := by
  obtain ⟨hlatest, -, hsize, -, -, hfind, -, -, -, hlisted, hsame⟩ := insertAll_latest_by_name displacingRow
  have hrows : (empty.insertAll displacingRow).accessors = [readerOfStaticX "ｚ", readerOfStaticX "😀"] := by
    decide +kernel
  have hperm : [readerOfStaticX "😀", readerOfStaticX "ｚ"].Perm
      (AccessorTable.empty.insertAll displacingRow).accessors := by
    refine List.Perm.trans ?_ (AccessorTable.agrees_insertAll displacingRow).perm.symm
    rw [hrows]
    exact List.Perm.swap _ _ _
  have hsorted := (hlisted _ hperm).trans hrows
  have hlast : Latest displacingRow "😀" (readerOfStaticX "😀") :=
    ⟨rfl, displacingRow.take 2, [], rfl, nofun⟩
  have hshorter := (hsame displacingRow.tail).1.mpr (by decide +kernel)
  exact ⟨(hfind _).trans ((hlatest _ _).mpr hlast), hsize.trans (by decide +kernel), hperm, hsorted, hshorter,
    fun listed hl => (((hsame _).2 _ listed hperm hl).mp hshorter).symm.trans hsorted⟩

end AccessorMap
end JvmAccessors
