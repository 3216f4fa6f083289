import JvmAccessors.Proofs.Outcome
import JvmAccessors.Proofs.Repository.FileTree

/-!
# The search for the file of a class

A class path is searched for the first directory that has the file of a class (`ClassPath.locate_append_cons`), and what
a lookup answers is settled by that file alone (`ClassPath.lookup_of_locate_eq_some`). So neither the directories after
it nor other files matter (`ClassPath.lookup_of_disk_eq`). A tree of files shows what other files are: the one at the
place of a path is found or not as before whatever happens elsewhere (`ClassPath.lookup_of_sameWays`).

Main statement: a lookup fails to find a class exactly if no directory has its file, and otherwise comes to what the
first file holds, if it can be read; further directories change nothing that was found, and neither do other files, but
for those that come with directories which a path goes into and up again (`ClassPath.lookup_first`,
`ClassPath.lookup_exceptions`).
-/

namespace JvmAccessors
namespace ClassPath

/-! ## Directories in order -/

section Disks

variable {disk disk' : Disk} {file : String} {roots : List String}

theorem locate_eq_none_iff : locate disk file roots = none ↔ ∀ root ∈ roots, disk (joinPath root file) = none := by
  induction roots with
  | nil => simp [locate]
  | cons root roots ih =>
    rw [locate, List.forall_mem_cons, ← ih]
    cases disk (joinPath root file) <;> simp

/-- Directories without the file are passed over. -/
theorem locate_append (h : locate disk file roots = none) (more : List String) :
    locate disk file (roots ++ more) = locate disk file more := by
  induction roots with
  | nil => rfl
  | cons root roots ih =>
    obtain ⟨hroot, hroots⟩ := List.forall_mem_cons.mp (locate_eq_none_iff.mp h)
    rw [List.cons_append, locate, hroot]
    exact ih (locate_eq_none_iff.mpr hroots)

/-- The first directory that has the file is the one that counts. -/
theorem locate_append_cons {root : String} {content : Except String Bytes} (h : locate disk file roots = none)
    (hroot : disk (joinPath root file) = some content) (more : List String) :
    locate disk file (roots ++ root :: more) = some (joinPath root file, content) := by
  rw [locate_append h, locate, hroot]

/-- Directories after one that has the file are never looked at. -/
theorem locate_append_of_ne_none (h : locate disk file roots ≠ none) (more : List String) :
    locate disk file (roots ++ more) = locate disk file roots := by
  induction roots with
  | nil => exact absurd rfl h
  | cons root roots ih =>
    rw [List.cons_append, locate, locate]
    rw [locate] at h
    cases hroot : disk (joinPath root file) with
    | some content => rfl
    | none =>
      rw [hroot] at h
      exact ih h

theorem locate_congr (h : ∀ root ∈ roots, disk' (joinPath root file) = disk (joinPath root file)) :
    locate disk' file roots = locate disk file roots := by
  induction roots with
  | nil => rfl
  | cons root roots ih =>
    obtain ⟨hroot, hroots⟩ := List.forall_mem_cons.mp h
    rw [locate, locate, hroot, ih hroots]

end Disks

/-! ## Lookups -/

section Lookups

variable {disk disk' : Disk} {name : String} {roots roots' : List String}

/-- A lookup depends on the file that is found. -/
theorem lookup_of_locate (h : locate disk' (fileName name) roots' = locate disk (fileName name) roots) :
    lookup disk' ⟨roots'⟩ name = lookup disk ⟨roots⟩ name := by
  rw [lookup, lookup, lookupBy, lookupBy, h]

theorem parseFrom_ne_classNotFound {origin n : String} {b : Bytes} :
    ClassFile.parseFrom origin b ≠ .error (.classNotFound n) := by
  intro h
  obtain ⟨e, -, he⟩ := Outcome.mapError_eq_error.mp h
  cases he

/-- A class is not found exactly if its file is not. -/
theorem lookup_eq_classNotFound_iff {n : String} : (lookup disk ⟨roots⟩ name).outcome = .error (.classNotFound n) ↔
    n = name ∧ locate disk (fileName name) roots = none := by
  unfold lookup lookupBy
  split
  · rename_i hl
    simp [Traced.ofExcept, hl, eq_comm]
  · rename_i path reason hl
    simp [Traced.ofExcept, Traced.after, hl]
  · rename_i path b hl
    simp [Traced.ofExcept, Traced.after, hl, parseFrom_ne_classNotFound]

/-- What comes of the file at a path: its bytes are parsed, and if they cannot be read, that is the failure. -/
def ofContent (path : String) : Except String Bytes → Except AccessError ClassFile
  | .error reason => .error (.unreadable path reason)
  | .ok b => match ClassFile.parse b with
    | .error e => .error (.internal ⟨"could not parse " ++ path, [e.message]⟩)
    | .ok c => .ok c

/-- The file that is found settles what a lookup answers. -/
theorem lookup_of_locate_eq_some {path : String} {content : Except String Bytes}
    (h : locate disk (fileName name) roots = some (path, content)) :
    (lookup disk ⟨roots⟩ name).outcome = ofContent path content := by
  rw [lookup, lookupBy, h]
  cases content with
  | error reason => rfl
  | ok b =>
    show ClassFile.parseFrom path b = _
    rw [ClassFile.parseFrom, ofContent]
    cases ClassFile.parse b <;> rfl

end Lookups

/-! ## Paths of class files -/

/-- The path of the file of a class below a directory. -/
def pathBelow (root name : String) : String :=
  if root = "" ∨ root.toList.getLast? = some '/' then root ++ fileName name else root ++ "/" ++ fileName name

/-- The file of a class with a relative name is below the directory that it is looked for in. -/
theorem joinPath_fileName {name : String} (hn : (ClassName.internal name).toList.head? ≠ some '/') (root : String) :
    joinPath root (fileName name) = pathBelow root name := by
  have hf : ¬ (fileName name).toList.head? = some '/' := by
    rw [fileName, String.toList_append]
    cases hname : (ClassName.internal name).toList with
    | nil => decide
    | cons c cs =>
      rw [hname] at hn
      exact hn
  unfold joinPath pathBelow
  by_cases hr : root = ""
  · rw [if_pos (.inr hr), if_pos (.inl hr), hr, String.empty_append]
  · rw [if_neg (not_or.mpr ⟨hf, hr⟩)]
    by_cases hs : root.toList.getLast? = some '/'
    · rw [if_pos hs, if_pos (.inr hs)]
    · rw [if_neg hs, if_neg (not_or.mpr ⟨hr, hs⟩)]

/-- The path of a class file ends with a name. -/
theorem exists_last_name (root name : String) :
    ∃ last, (FileTree.parts (pathBelow root name)).getLast? = some last ∧ FileTree.isName last = true := by
  have hpath : ∃ front, (pathBelow root name).toList = front ++ ".class".toList := by
    unfold pathBelow fileName
    split
    · exact ⟨root.toList ++ (ClassName.internal name).toList, by simp⟩
    · exact ⟨root.toList ++ '/' :: (ClassName.internal name).toList, by simp⟩
  obtain ⟨front, hfront⟩ := hpath
  obtain ⟨zs, hz⟩ := FileTree.exists_getLast?_cut (show '/' ∉ ".class".toList by decide) front
  refine ⟨String.ofList (zs ++ ".class".toList), ?_, ?_⟩
  · rw [FileTree.parts, hfront, List.getLast?_map, hz]
    rfl
  · apply FileTree.isName_of_lt_length
    simp

/-! ## Other directories and other files -/

/-- **The first directories of a class path are all that are looked at** for a class: one of them has its file, or there
are no others. -/
def Suffices (disk : Disk) (name : String) (front back : List String) : Prop :=
  back = [] ∨ ∃ root ∈ front, disk (pathBelow root name) ≠ none

section Relative

variable {disk disk' : Disk} {t t' : FileTree} {name : String} {roots front back : List String}
  (hn : (ClassName.internal name).toList.head? ≠ some '/')
include hn

theorem locate_fileName_eq_none_iff :
    locate disk (fileName name) roots = none ↔ ∀ root ∈ roots, disk (pathBelow root name) = none := by
  simp only [locate_eq_none_iff, joinPath_fileName hn]

/-- The first directory that has the file of a class is the one that counts. -/
theorem outcome_of_first {before : List String} {root : String} {content : Except String Bytes}
    (hbefore : ∀ r ∈ before, disk (pathBelow r name) = none) (hroot : disk (pathBelow root name) = some content)
    (after : List String) :
    (lookup disk ⟨before ++ root :: after⟩ name).outcome = ofContent (pathBelow root name) content := by
  rw [← joinPath_fileName hn] at hroot ⊢
  exact lookup_of_locate_eq_some (locate_append_cons ((locate_fileName_eq_none_iff hn).mpr hbefore) hroot after)

theorem locate_of_suffices (h : Suffices disk name front back) :
    locate disk (fileName name) (front ++ back) = locate disk (fileName name) front := by
  obtain rfl | ⟨root, hroot, hfile⟩ := h
  · rw [List.append_nil]
  · exact locate_append_of_ne_none (fun hnone => hfile ((locate_fileName_eq_none_iff hn).mp hnone root hroot)) back

/-- A lookup comes to the same on a disk that differs at other paths. -/
theorem lookup_of_disk_eq (h : Suffices disk name front back)
    (hsame : ∀ root ∈ front, disk' (pathBelow root name) = disk (pathBelow root name)) :
    lookup disk' ⟨front ++ back⟩ name = lookup disk ⟨front ++ back⟩ name := by
  have h' : Suffices disk' name front back := by
    obtain hback | ⟨root, hroot, hfile⟩ := h
    · exact .inl hback
    · exact .inr ⟨root, hroot, (hsame root hroot).symm ▸ hfile⟩
  apply lookup_of_locate
  rw [locate_of_suffices hn h, locate_of_suffices hn h']
  apply locate_congr
  intro root hroot
  rw [joinPath_fileName hn, hsame root hroot]

/-- A lookup comes to the same in a tree that differs in files elsewhere. -/
theorem lookup_of_sameWays (h : Suffices t.disk name front back)
    (hsame : ∀ root ∈ front, FileTree.SameWays t t' (pathBelow root name) ∧
      t'.file? (t.names (pathBelow root name)) = t.file? (t.names (pathBelow root name))) :
    lookup t'.disk ⟨front ++ back⟩ name = lookup t.disk ⟨front ++ back⟩ name := by
  apply lookup_of_disk_eq hn h
  intro root hroot
  obtain ⟨last, hl, hlast⟩ := exists_last_name root name
  obtain ⟨hways, hfile⟩ := hsame root hroot
  exact FileTree.disk_eq_of_file?_eq hl hlast hways hfile

end Relative

/-- **The search for the file of a class.** Let the name of a class be relative; directories may be absolute. The class is
not found exactly if no directory has its file, and the failure has the name as it was given. Otherwise the first file
settles what a lookup answers: the class that it holds, or what is wrong with it, and if it cannot be read, that it
cannot. Further directories change nothing, unless the class was not found, nor does anything but the file of the class
below each directory up to the first that has it.

So it is in a tree of files, where a path has a file if one is at the place that the path leads to, and a directory of
that name is none. Whatever files come, change or go at other places, a lookup stays the same; if the tree has all its
directories and none of those paths goes up, a file may come with new ones. -/
theorem lookup_first (name : String) (hn : (ClassName.internal name).toList.head? ≠ some '/') :
    (∀ disk roots,
      (∀ n, (lookup disk ⟨roots⟩ name).outcome = .error (.classNotFound n) ↔
        n = name ∧ ∀ root ∈ roots, disk (pathBelow root name) = none) ∧
      (∀ before root after content, roots = before ++ root :: after → (∀ r ∈ before, disk (pathBelow r name) = none) →
        disk (pathBelow root name) = some content →
        (lookup disk ⟨roots⟩ name).outcome = ofContent (pathBelow root name) content) ∧
      (∀ more, (lookup disk ⟨roots⟩ name).outcome ≠ .error (.classNotFound name) →
        lookup disk ⟨roots ++ more⟩ name = lookup disk ⟨roots⟩ name) ∧
      ∀ front back, roots = front ++ back → Suffices disk name front back → ∀ disk' : Disk,
        (∀ root ∈ front, disk' (pathBelow root name) = disk (pathBelow root name)) →
        lookup disk' ⟨roots⟩ name = lookup disk ⟨roots⟩ name) ∧
    ∀ t : FileTree, (∀ path content, t.disk path = some content ↔ t.HasFile path content) ∧
      ∀ front back, Suffices t.disk name front back →
        (∀ t' : FileTree, (∀ root ∈ front, FileTree.SameWays t t' (pathBelow root name) ∧
          t'.file? (t.names (pathBelow root name)) = t.file? (t.names (pathBelow root name))) →
          lookup t'.disk ⟨front ++ back⟩ name = lookup t.disk ⟨front ++ back⟩ name) ∧
        ∀ path, (∀ root ∈ front, t.names (pathBelow root name) ≠ t.names path) →
          lookup (t.remove path).disk ⟨front ++ back⟩ name = lookup t.disk ⟨front ++ back⟩ name ∧
          ∀ content, t.HasParents path ∨ (t.Rooted ∧ ∀ root ∈ front, ".." ∉ FileTree.parts (pathBelow root name)) →
            lookup (t.put path content).disk ⟨front ++ back⟩ name = lookup t.disk ⟨front ++ back⟩ name := by
  refine ⟨fun disk roots => ⟨fun n => ?_, ?_, ?_, ?_⟩, fun t => ⟨fun path content => FileTree.disk_eq_some_iff, ?_⟩⟩
  · rw [lookup_eq_classNotFound_iff, locate_fileName_eq_none_iff hn]
  · intro before root after content hroots hbefore hroot
    subst hroots
    exact outcome_of_first hn hbefore hroot after
  · intro more hfound
    apply lookup_of_locate
    apply locate_append_of_ne_none
    intro hnone
    exact hfound (lookup_eq_classNotFound_iff.mpr ⟨rfl, hnone⟩)
  · intro front back hroots hs disk' hsame
    subst hroots
    exact lookup_of_disk_eq hn hs hsame
  · intro front back hs
    refine ⟨fun t' hsame => lookup_of_sameWays hn hs hsame, fun path hpath => ⟨?_, fun content hways => ?_⟩⟩
    · apply lookup_of_sameWays hn hs
      intro root hroot
      exact ⟨⟨rfl, .inl fun _ => rfl⟩, FileTree.file?_remove t (hpath root hroot)⟩
    · apply lookup_of_sameWays hn hs
      intro root hroot
      refine ⟨⟨rfl, ?_⟩, FileTree.file?_put t content (hpath root hroot)⟩
      obtain hparents | ⟨hr, hup⟩ := hways
      · exact .inl (hparents.hasDirectory_put content)
      · exact .inr ⟨hr, hr.put path content, hup root hroot⟩

/-- A tree with a directory that is named like the file of a class, with such a file that is none of a class, below an
absolute path, and with another such file that cannot be read. -/
def shadowedTree : FileTree :=
  ((FileTree.empty.makeDirectory "d/A.class").write "/e/A.class" [0xca]).put "f/A.class" (.error "permission denied")

/-- The file that comes first is parsed in vain, and whether there is one after it does not matter; without the first
directory that has one, the other cannot be read. -/
theorem lookup_shadowedTree :
    (lookup shadowedTree.disk ⟨["missing", "d", "/e", "f"]⟩ "A").outcome =
      .error (.internal ⟨"could not parse /e/A.class", ["out of bytes"]⟩) ∧
    lookup (shadowedTree.remove "f/A.class").disk ⟨["missing", "d", "/e", "f"]⟩ "A" =
      lookup shadowedTree.disk ⟨["missing", "d", "/e", "f"]⟩ "A" ∧
    (lookup shadowedTree.disk ⟨["missing", "d", "f", "/e"]⟩ "A").outcome =
      .error (.unreadable "f/A.class" "permission denied") := by
  obtain ⟨hdisk, htree⟩ := lookup_first "A" (by decide)
  have hbefore : ∀ r ∈ ["missing", "d"], shadowedTree.disk (pathBelow r "A") = none := by decide +kernel
  have hfirst : shadowedTree.disk (pathBelow "/e" "A") = some (.ok [0xca]) := by decide +kernel
  have hother : shadowedTree.disk (pathBelow "f" "A") = some (.error "permission denied") := by decide +kernel
  refine ⟨?_, ?_, ?_⟩
  · exact (hdisk _ _).2.1 ["missing", "d"] "/e" ["f"] _ rfl hbefore hfirst
  · have hs : Suffices shadowedTree.disk "A" ["missing", "d", "/e"] ["f"] :=
      .inr ⟨"/e", by simp, by rw [hfirst]; nofun⟩
    obtain ⟨-, hpath⟩ := (htree shadowedTree).2 _ _ hs
    exact (hpath "f/A.class" (by decide +kernel)).1
  · exact (hdisk _ _).2.1 ["missing", "d"] "f" ["/e"] _ rfl hbefore hother

/-- A tree with the file of a class that cannot be read. -/
def lockedTree : FileTree := FileTree.empty.put "r/A.class" (.error "permission denied")

/-- A tree with the file of a class in a directory that has no other in it. -/
def flatTree : FileTree := FileTree.empty.write "r/A.class" [0xca]

/-- What `lookup_first` says of a first file that cannot be read and of new directories cannot be left out. If the first
file cannot be read, the answer is not what parsing any bytes comes to. And if a path of the class path goes into a
directory that is missing and up again, another file that comes with this directory makes the class be found. -/
theorem lookup_exceptions :
    (lockedTree.HasFile (pathBelow "r" "A") (.error "permission denied") ∧
      (lookup lockedTree.disk ⟨["r"]⟩ "A").outcome = .error (.unreadable "r/A.class" "permission denied") ∧
      ¬ ∃ b, (lookup lockedTree.disk ⟨["r"]⟩ "A").outcome = ClassFile.parseFrom "r/A.class" b) ∧
    flatTree.names "r/n/B.class" ≠ flatTree.names (pathBelow "r/n/.." "A") ∧
      (lookup flatTree.disk ⟨["r/n/.."]⟩ "A").outcome = .error (.classNotFound "A") ∧
      (lookup (flatTree.write "r/n/B.class" [0xca]).disk ⟨["r/n/.."]⟩ "A").outcome =
        .error (.internal ⟨"could not parse r/n/../A.class", ["out of bytes"]⟩) := by
  have hfile : lockedTree.disk (pathBelow "r" "A") = some (.error "permission denied") := by decide +kernel
  have hlocate : locate lockedTree.disk (fileName "A") ["r"] = some ("r/A.class", .error "permission denied") := by
    decide +kernel
  have hlocked := lookup_of_locate_eq_some hlocate
  refine ⟨⟨FileTree.disk_eq_some_iff.mp hfile, hlocked, ?_⟩, by decide +kernel, ?_, ?_⟩
  · rintro ⟨b, hb⟩
    obtain ⟨e, -, he⟩ := Outcome.mapError_eq_error.mp (hb.symm.trans hlocked)
    cases he
  · exact lookup_eq_classNotFound_iff.mpr ⟨rfl, by decide +kernel⟩
  · have hfound : locate (flatTree.write "r/n/B.class" [0xca]).disk (fileName "A") ["r/n/.."] =
        some ("r/n/../A.class", .ok [0xca]) := by decide +kernel
    exact lookup_of_locate_eq_some hfound

end ClassPath
end JvmAccessors
