import JvmAccessors.Proofs.Repository.Search

/-!
# Where the files are that a class path reads

The components of a path are its parts, but for those that stay where they are. The path of a class file below a
directory has the components of the directory and then those of the file name, none of which goes up
(`ClassPath.below_pathBelow`): every `.` of a class name becomes a separator, so that no `..` is left of it.

That is the path of the file that is read unless the name starts with a separator. It stands for itself then, and no
directory confines it. Main statement: what is read is below a directory of the class path for just those names that do
not start so, and a lookup depends on nothing else (`ClassPath.reads_below_iff`). For the others a file outside of all
directories is read, and one that is below a directory is not (`ClassPath.reads_outside`).
-/

namespace JvmAccessors

/-! ## Components of paths -/

namespace FileTree

theorem cut_append_separator (xs ys : List Char) : cut (xs ++ '/' :: ys) = cut xs ++ cut ys := by
  induction xs with
  | nil =>
    cases hc : cut ys with
    | nil => exact absurd hc (cut_ne_nil ys)
    | cons part parts => simp [cut, hc]
  | cons x xs ih =>
    rw [List.cons_append, cut, cut, ih]
    cases hc : cut xs with
    | nil => exact absurd hc (cut_ne_nil xs)
    | cons part parts => by_cases hx : x = '/' <;> simp [hx]

/-- A part is spelled with characters of the path, in their order. -/
theorem sublist_of_mem_cut {part : List Char} : ∀ {cs : List Char}, part ∈ cut cs → part.Sublist cs
  | [], h => by
    rw [cut, List.mem_singleton] at h
    rw [h]
  | c :: cs, h => by
    have ih {p : List Char} (hp : p ∈ cut cs) : p.Sublist cs := sublist_of_mem_cut hp
    rw [cut] at h
    cases hc : cut cs with
    | nil => exact absurd hc (cut_ne_nil cs)
    | cons first rest =>
      rw [hc] at h ih
      by_cases hs : c = '/'
      · simp only [hs, if_true, List.mem_cons] at h
        rcases h with rfl | h
        · exact List.nil_sublist _
        · exact (ih (List.mem_cons.mpr h)).cons c
      · simp only [hs, if_false, List.mem_cons] at h
        rcases h with rfl | h
        · exact (ih List.mem_cons_self).cons_cons c
        · exact (ih (List.mem_cons_of_mem _ h)).cons c

/-- The components of a path: its parts, but for those that stay where they are. -/
def components (path : String) : List String := (parts path).filter fun part => part ≠ "" ∧ part ≠ "."

/-- A path is absolute if it starts with a separator. -/
def IsAbsolute (path : String) : Prop := path.toList.head? = some '/'

instance (path : String) : Decidable (IsAbsolute path) := inferInstanceAs (Decidable (_ = _))

/-- **A path is below a directory**: it goes on from the directory by more components, and does not go up. -/
structure Below (root path : String) (more : List String) : Prop where
  absolute : IsAbsolute path ↔ IsAbsolute root
  components : components path = components root ++ more
  descends : more ≠ [] ∧ ".." ∉ more

theorem components_append_separator (front back : String) :
    components (front ++ "/" ++ back) = components front ++ components back := by
  have hcut : cut (front ++ "/" ++ back).toList = cut front.toList ++ cut back.toList := by
    rw [← cut_append_separator]
    simp
  rw [components, parts, hcut, List.map_append, List.filter_append]
  rfl

end FileTree

namespace ClassPath

open FileTree

/-! ## Paths of class files -/

/-- The path of a class file is absolute exactly if the name starts with a separator, in either form. -/
theorem isAbsolute_fileName_iff {name : String} :
    IsAbsolute (fileName name) ↔ (ClassName.internal name).toList.head? = some '/' := by
  rw [IsAbsolute, fileName, String.toList_append]
  cases (ClassName.internal name).toList with
  | nil => decide
  | cons c cs => rfl

theorem head?_internal_iff {name : String} : (ClassName.internal name).toList.head? = some '/' ↔
    name.toList.head? = some '.' ∨ name.toList.head? = some '/' := by
  rw [ClassName.toList_internal]
  cases name.toList with
  | nil => simp
  | cons c cs =>
    simp only [List.map_cons, List.head?_cons, Option.some.injEq, ClassName.separator]
    split <;> simp [*]

/-- No part of the path of a class file goes up: it has only one `.`, that of its ending. -/
theorem up_not_mem_fileName (name : String) : ".." ∉ components (fileName name) := by
  intro h
  obtain ⟨part, hpart, hup⟩ := List.mem_map.mp (List.mem_of_mem_filter h)
  have hcount := (sublist_of_mem_cut hpart).count_le '.'
  have hname : (ClassName.internal name).toList.count '.' = 0 :=
    List.count_eq_zero.mpr (ClassName.not_mem_internal name)
  have htwo : part.count '.' = 2 := by
    rw [← String.toList_ofList (l := part), hup]
    decide
  rw [fileName, String.toList_append, List.count_append, hname, htwo] at hcount
  exact absurd hcount (by decide)

theorem components_fileName_ne_nil (name : String) : components (fileName name) ≠ [] := by
  obtain ⟨last, hl, hlast⟩ := exists_last_name "" name
  have hpath : pathBelow "" name = fileName name := String.empty_append
  rw [hpath] at hl
  apply List.ne_nil_of_mem (a := last)
  exact List.mem_filter.mpr ⟨List.mem_of_getLast? hl, by simpa [not_or] using (isName_iff.mp hlast).1⟩

/-- **The file of a class with a relative name is below the directory** that it is looked for in, by the components of its
name. -/
theorem below_pathBelow {name : String} (hn : ¬ IsAbsolute (fileName name)) (root : String) :
    Below root (pathBelow root name) (components (fileName name)) := by
  have hdescends := And.intro (components_fileName_ne_nil name) (up_not_mem_fileName name)
  by_cases hempty : root = ""
  · have hpath : pathBelow root name = fileName name := by rw [pathBelow, if_pos (.inl hempty), hempty, String.empty_append]
    have hnone : components "" = [] := by decide
    rw [hpath, hempty]
    exact ⟨⟨fun h => absurd h hn, nofun⟩, by rw [hnone, List.nil_append], hdescends⟩
  have habsolute : IsAbsolute (pathBelow root name) ↔ IsAbsolute root := by
    obtain ⟨c, cs, hroot⟩ := List.exists_cons_of_ne_nil fun h => hempty (String.toList_eq_nil_iff.mp h)
    unfold IsAbsolute pathBelow
    split <;> simp [hroot]
  refine ⟨habsolute, ?_, hdescends⟩
  by_cases hslash : root.toList.getLast? = some '/'
  · -- a separator at the end of the directory is the one in front of the name
    obtain ⟨front, hfront⟩ : ∃ front, root = front ++ "/" := by
      refine ⟨String.ofList root.toList.dropLast, String.toList_injective ?_⟩
      have hlast := List.dropLast_append_getLast? '/' hslash
      simpa using hlast.symm
    have hroot : components root = components front := by
      have h := components_append_separator front ""
      rw [String.append_empty, ← hfront] at h
      rw [h]
      exact List.append_nil _
    rw [pathBelow, if_pos (.inr hslash), hroot, ← components_append_separator, ← hfront]
  · rw [pathBelow, if_neg (not_or.mpr ⟨hempty, hslash⟩), components_append_separator]

/-! ## What is read -/

/-- The file at a path is read for a name: it is the one that a lookup tells to load. -/
def Reads (disk : Disk) (p : ClassPath) (name path : String) : Prop :=
  Event.loading name path ∈ (lookup disk p name).events

section Disks

variable {disk disk' : Disk} {roots : List String} {name path : String}

theorem reads_iff : Reads disk ⟨roots⟩ name path ↔
    ∃ content, locate disk (fileName name) roots = some (path, content) := by
  unfold Reads lookup lookupBy
  split <;> rename_i hl <;> simp [Traced.ofExcept, Traced.after, hl, eq_comm]

/-- What is found is a file below one of the directories, or at an absolute name. -/
theorem exists_root_of_locate {file : String} {content : Except String Bytes}
    (h : locate disk file roots = some (path, content)) :
    ∃ root ∈ roots, path = joinPath root file ∧ disk path = some content := by
  induction roots with
  | nil => cases h
  | cons root roots ih =>
    rw [locate] at h
    split at h
    · rename_i hroot
      cases h
      exact ⟨root, List.mem_cons_self, rfl, hroot⟩
    · obtain ⟨root', hmem, hpath⟩ := ih h
      exact ⟨root', List.mem_cons_of_mem _ hmem, hpath⟩

theorem locate_of_isAbsolute {file : String} (h : IsAbsolute file) :
    locate disk file roots = if roots = [] then none else (disk file).map (file, ·) := by
  have hjoin : ∀ root, joinPath root file = file := fun _ => if_pos (.inl h)
  induction roots with
  | nil => rfl
  | cons root roots ih =>
    rw [locate, hjoin, if_neg (List.cons_ne_nil _ _), ih]
    cases hfile : disk file with
    | none => simp
    | some content => rfl

/-- A file with an absolute name is read as soon as there is a directory to look in, whichever it is. -/
theorem reads_iff_of_isAbsolute (h : IsAbsolute (fileName name)) : Reads disk ⟨roots⟩ name path ↔
    roots ≠ [] ∧ path = fileName name ∧ ∃ content, disk path = some content := by
  rw [reads_iff, locate_of_isAbsolute h]
  by_cases hroots : roots = []
  · simp [hroots]
  · simp only [hroots, if_false, Option.map_eq_some_iff, Prod.mk.injEq, ne_eq, not_false_eq_true, true_and]
    constructor
    · intro hread
      obtain ⟨content, _, hfile, rfl, -⟩ := hread
      exact ⟨rfl, _, hfile⟩
    · intro hread
      obtain ⟨rfl, content, hfile⟩ := hread
      exact ⟨content, content, hfile, rfl, rfl⟩

/-- A file with a relative name is read below one of the directories only. -/
theorem exists_below_of_reads (hn : ¬ IsAbsolute (fileName name)) (h : Reads disk ⟨roots⟩ name path) :
    ∃ root ∈ roots, Below root path (components (fileName name)) := by
  obtain ⟨content, hl⟩ := reads_iff.mp h
  obtain ⟨root, hroot, hpath, -⟩ := exists_root_of_locate hl
  rw [joinPath_fileName (mt isAbsolute_fileName_iff.mpr hn)] at hpath
  exact ⟨root, hroot, hpath ▸ below_pathBelow hn root⟩

end Disks

/-- A name starts with a separator, in either form. -/
def StartsWithSeparator (name : String) : Prop := name.toList.head? = some '.' ∨ name.toList.head? = some '/'

/-- **Which files a class path reads.** They are below its directories, by the components of the file name, for just
those names that do not start with a separator, and nothing but the files at those places makes a difference to a lookup.
For a name that does, the file at the absolute path that it spells is read, if there is one, whatever the directories
are. -/
theorem reads_below_iff (name : String) :
    ((∀ disk roots path, Reads disk ⟨roots⟩ name path → ∃ root ∈ roots, Below root path (components (fileName name))) ↔
      ¬ StartsWithSeparator name) ∧
    (¬ StartsWithSeparator name → ∀ disk disk' roots,
      (∀ root ∈ roots, disk' (pathBelow root name) = disk (pathBelow root name)) →
        lookup disk' ⟨roots⟩ name = lookup disk ⟨roots⟩ name) ∧
    (StartsWithSeparator name → ∀ disk roots path, Reads disk ⟨roots⟩ name path ↔
      roots ≠ [] ∧ path = fileName name ∧ ∃ content, disk path = some content) := by
  have hiff : IsAbsolute (fileName name) ↔ StartsWithSeparator name :=
    isAbsolute_fileName_iff.trans head?_internal_iff
  rw [← hiff]
  refine ⟨⟨fun hbelow habsolute => ?_, fun hn disk roots path => exists_below_of_reads hn⟩, ?_,
    fun habsolute disk roots path => reads_iff_of_isAbsolute habsolute⟩
  · -- on a disk with all files, one at an absolute path is read, which no relative directory has below it
    have hread : Reads (fun _ => some (.ok [])) ⟨["r"]⟩ name (fileName name) :=
      (reads_iff_of_isAbsolute habsolute).mpr ⟨List.cons_ne_nil _ _, rfl, _, rfl⟩
    obtain ⟨root, hroot, hpath⟩ := hbelow _ _ _ hread
    rw [List.mem_singleton.mp hroot] at hpath
    exact absurd (hpath.absolute.mp habsolute) (by decide)
  · intro hn disk disk' roots hsame
    apply lookup_of_locate
    apply locate_congr
    intro root hroot
    rw [joinPath_fileName (mt isAbsolute_fileName_iff.mpr hn), hsame root hroot]

/-- A disk with one file, at the top. -/
def topDisk : Disk := fun path => if path = "/A.class" then some (.ok [0xca]) else none

/-- A tree with the file of a class below a directory. -/
def heldTree : FileTree := FileTree.empty.write "r/A.class" [0xca]

/-- A tree with the file of a class in the current directory. -/
def looseTree : FileTree := FileTree.empty.write "A.class" [0xca]

/-- A file outside of the only directory is read for a name that starts with a `.`; and the file that is below the
directory, by the components of the name, is not read for one that starts with a `/`. In a tree, the file beside the
directory is read for its absolute name. -/
theorem reads_outside :
    (Reads topDisk ⟨["r"]⟩ ".A" "/A.class" ∧ ¬ ∃ root ∈ ["r"], ∃ more, Below root "/A.class" more) ∧
    (heldTree.HasFile (pathBelow "r" "/A") (.ok [0xca]) ∧
      (lookup heldTree.disk ⟨["r"]⟩ "/A").outcome = .error (.classNotFound "/A")) ∧
    Reads looseTree.disk ⟨["r"]⟩ "/proc/self/cwd/A" "/proc/self/cwd/A.class" ∧
      ¬ ∃ root ∈ ["r"], ∃ more, Below root "/proc/self/cwd/A.class" more := by
  have houtside {path : String} (habsolute : IsAbsolute path) : ¬ ∃ root ∈ ["r"], ∃ more, Below root path more := by
    intro h
    obtain ⟨root, hroot, more, hpath⟩ := h
    rw [List.mem_singleton.mp hroot] at hpath
    exact absurd (hpath.absolute.mp habsolute) (by decide)
  refine ⟨⟨?_, houtside (by decide)⟩, ⟨?_, ?_⟩, ?_, houtside (by decide)⟩
  · exact (reads_iff_of_isAbsolute (by decide)).mpr ⟨List.cons_ne_nil _ _, by decide, _, if_pos rfl⟩
  · exact ⟨["proc", "self", "cwd", "r", "A.class"], by decide +kernel, by decide +kernel⟩
  · rw [lookup_eq_classNotFound_iff]
    exact ⟨rfl, by decide +kernel⟩
  · refine (reads_iff_of_isAbsolute (by decide)).mpr ⟨List.cons_ne_nil _ _, by decide +kernel, .ok [0xca], ?_⟩
    decide +kernel

end ClassPath
end JvmAccessors
