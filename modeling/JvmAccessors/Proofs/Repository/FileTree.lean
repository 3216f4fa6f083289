import JvmAccessors.Proofs.Repository.InMemory
import JvmAccessors.Repository.FileTree

/-!
# Where paths lead

What a path names in a tree of files is settled in two steps: where it leads (`FileTree.target?`), which the directories
alone say, and which file is there (`FileTree.disk_eq`). It leads to the place that its names give, if it leads anywhere
(`FileTree.names_of_target?`). Main statement: a file is found or not as before if the tree changes in other files
(`FileTree.disk_eq_of_file?_eq`). Directories that come or go make a difference only to a path that goes up, if all the
directories on the way to a file are in the tree (`FileTree.Rooted`).
-/

namespace JvmAccessors
namespace FileTree

variable {t t' : FileTree}

/-! ## Parts and names -/

theorem cut_ne_nil : ∀ cs : List Char, cut cs ≠ []
  | [] => by simp [cut]
  | c :: cs => by
    rw [cut]
    split
    · simp
    · split <;> simp

theorem cut_of_not_mem {cs : List Char} (h : '/' ∉ cs) : cut cs = [cs] := by
  induction cs with
  | nil => rfl
  | cons c cs ih =>
    rw [List.mem_cons, not_or] at h
    simp [cut, ih h.2, Ne.symm h.1]

/-- Characters at the end that are no separators are the end of the last part. -/
theorem exists_getLast?_cut {ys : List Char} (hy : '/' ∉ ys) (xs : List Char) :
    ∃ zs, (cut (xs ++ ys)).getLast? = some (zs ++ ys) := by
  induction xs with
  | nil => exact ⟨[], by rw [List.nil_append, cut_of_not_mem hy]; rfl⟩
  | cons x xs ih =>
    obtain ⟨zs, hz⟩ := ih
    rw [List.cons_append, cut]
    cases hc : cut (xs ++ ys) with
    | nil => exact absurd hc (cut_ne_nil _)
    | cons part parts =>
      rw [hc] at hz
      by_cases hs : x = '/'
      · exact ⟨zs, by simpa [hs] using hz⟩
      · cases parts with
        | nil =>
          have hpart : part = zs ++ ys := Option.some.inj hz
          exact ⟨x :: zs, by simp [hs, hpart]⟩
        | cons next rest => exact ⟨zs, by simpa [hs] using hz⟩

/-- Where a part leads from a place, without asking what is there. -/
def follow (way : List String) (part : String) : List String :=
  if part = "" ∨ part = "." then way else if part = ".." then way.dropLast else way ++ [part]

theorem names_eq_foldl (path : String) : t.names path = (parts path).foldl follow (t.base path) := rfl

/-- Where paths start is all that their names depend on. -/
theorem names_congr (h : t'.current = t.current) (path : String) : t'.names path = t.names path := by
  rw [names_eq_foldl, names_eq_foldl, base, base, h]

/-- Whether a part names something below a place, or stays there or goes up. -/
def isName (part : String) : Bool := part ≠ "" ∧ part ≠ "." ∧ part ≠ ".."

theorem isName_iff {part : String} : isName part = true ↔ ¬ (part = "" ∨ part = ".") ∧ part ≠ ".." := by
  simp [isName, and_assoc]

/-- A part is a name if it is too long for anything else. -/
theorem isName_of_lt_length {part : String} (h : 2 < part.toList.length) : isName part = true := by
  have hne : ∀ short : String, short.toList.length ≤ 2 → part ≠ short := by
    intro short hs he
    rw [he] at h
    omega
  rw [isName_iff, not_or]
  exact ⟨⟨hne "" (by decide), hne "." (by decide)⟩, hne ".." (by decide)⟩

/-- Parts that do not go up lead to a place below. -/
theorem foldl_follow {parts : List String} (hup : ".." ∉ parts) : ∀ way,
    parts.foldl follow way = way ++ parts.filter isName := by
  induction parts with
  | nil => simp
  | cons part parts ih =>
    intro way
    rw [List.mem_cons, not_or] at hup
    rw [List.foldl_cons, ih hup.2, follow]
    by_cases hstay : part = "" ∨ part = "."
    · have hname : ¬ isName part = true := fun hn => (isName_iff.mp hn).1 hstay
      rw [if_pos hstay, List.filter_cons_of_neg hname]
    · have hname : isName part = true := isName_iff.mpr ⟨hstay, Ne.symm hup.1⟩
      rw [if_neg hstay, if_neg (Ne.symm hup.1), List.filter_cons_of_pos hname, List.append_assoc]
      rfl

/-! ## Where a path leads -/

/-- The place of the file that parts end at, walking on from a directory; what files there are does not matter. -/
def land (t : FileTree) : (way : List String) → (parts : List String) → Option (List String)
  | _, [] => none
  | way, part :: rest =>
    if part = "" ∨ part = "." then t.land way rest
    else if part = ".." then t.land way.dropLast rest
    else if rest = [] then some (way ++ [part])
    else if t.hasDirectory (way ++ [part]) then t.land (way ++ [part]) rest
    else none

/-- The place that a path leads to as the path of a file, if the directories on the way are there. -/
def target? (t : FileTree) (path : String) : Option (List String) :=
  if path.toList.contains '\x00' ∨ maxPathLength < path.utf8ByteSize then none
  else t.land (t.base path) (parts path)

theorem walk_eq_land : ∀ (parts way : List String), t.walk way parts = (t.land way parts).bind t.file?
  | [], _ => rfl
  | part :: rest, way => by
    unfold walk land
    split
    · exact walk_eq_land rest way
    · split
      · exact walk_eq_land rest _
      · split
        · rfl
        · split
          · exact walk_eq_land rest _
          · rfl

/-- A path names the file at the place that it leads to. -/
theorem disk_eq (path : String) : t.disk path = (t.target? path).bind t.file? := by
  unfold disk target?
  split
  · rfl
  · rw [walk_eq_land]

/-- **A path names a regular file**: there is a file at the place that it leads to. -/
def HasFile (t : FileTree) (path : String) (content : Except String Bytes) : Prop :=
  ∃ way, t.target? path = some way ∧ t.file? way = some content

theorem disk_eq_some_iff {path : String} {content : Except String Bytes} :
    t.disk path = some content ↔ t.HasFile path content := by
  rw [disk_eq, Option.bind_eq_some_iff, HasFile]

theorem foldl_of_land {w : List String} : ∀ {parts way : List String}, t.land way parts = some w →
    w = parts.foldl follow way
  | [], _, h => by cases h
  | part :: rest, way, h => by
    unfold land at h
    rw [List.foldl_cons, follow]
    split at h
    · rename_i hstay
      rw [if_pos hstay]
      exact foldl_of_land h
    · rename_i hstay
      rw [if_neg hstay]
      split at h
      · rename_i hup
        rw [if_pos hup]
        exact foldl_of_land h
      · rename_i hup
        rw [if_neg hup]
        split at h
        · rename_i hlast
          cases h
          rw [hlast]
          rfl
        · split at h
          · exact foldl_of_land h
          · cases h

/-- A path that leads anywhere leads to the place that its names give. -/
theorem names_of_target? {path : String} {way : List String} (h : t.target? path = some way) : way = t.names path := by
  unfold target? at h
  split at h
  · cases h
  · exact foldl_of_land h

theorem land_congr (hd : ∀ way, t'.hasDirectory way = t.hasDirectory way) : ∀ parts way : List String,
    t'.land way parts = t.land way parts
  | [], _ => rfl
  | part :: rest, way => by
    simp only [land, hd, land_congr hd rest]

theorem target?_congr (hc : t'.current = t.current) (hd : ∀ way, t'.hasDirectory way = t.hasDirectory way)
    (path : String) : t'.target? path = t.target? path := by
  rw [target?, target?, land_congr hd, base, base, hc]

/-! ## Trees with all their directories -/

/-- **The directories on the way to a file are in the tree.** -/
def Rooted (t : FileTree) : Prop := ∀ directory rest content, t.file? (directory ++ rest) = some content → rest ≠ [] →
  t.hasDirectory directory = true

/-- Walking down to a name finds the file at its place, if the tree has all its directories. -/
theorem walk_of_not_up (hr : t.Rooted) {last : String} (hlast : isName last = true) : ∀ {parts : List String},
    ".." ∉ parts → parts.getLast? = some last → ∀ way, t.walk way parts = t.file? (way ++ parts.filter isName)
  | [], _, h, _ => by cases h
  | [part], _, h, way => by
    obtain rfl : part = last := Option.some.inj h
    obtain ⟨hstay, hup⟩ := isName_iff.mp hlast
    rw [walk, if_neg hstay, if_neg hup, if_pos rfl, List.filter_cons_of_pos hlast]
    rfl
  | part :: next :: rest, hup, h, way => by
    rw [List.mem_cons, not_or] at hup
    rw [List.getLast?_cons_cons] at h
    have ih := walk_of_not_up hr hlast hup.2 h
    by_cases hstay : part = "" ∨ part = "."
    · have hname : ¬ isName part = true := fun hn => (isName_iff.mp hn).1 hstay
      rw [walk, if_pos hstay, List.filter_cons_of_neg hname]
      exact ih way
    have hname : isName part = true := isName_iff.mpr ⟨hstay, Ne.symm hup.1⟩
    rw [walk, if_neg hstay, if_neg (Ne.symm hup.1), if_neg (by simp), List.filter_cons_of_pos hname,
      List.append_cons way part (List.filter isName (next :: rest))]
    by_cases hd : t.hasDirectory (way ++ [part]) = true
    · rw [if_pos hd]
      exact ih _
    · rw [if_neg hd, eq_comm, Option.eq_none_iff_forall_ne_some]
      intro content hb
      have hmem : last ∈ (next :: rest).filter isName := List.mem_filter.mpr ⟨List.mem_of_getLast? h, hlast⟩
      exact hd (hr _ _ content hb (List.ne_nil_of_mem hmem))

/-! ## Trees that differ in other files -/

/-- **What directories there are makes no difference** to a path: it starts at the same place in both trees, and these
have the same directories, or in each the directories on the way to a file are there and the path does not go up. -/
structure SameWays (t t' : FileTree) (path : String) : Prop where
  current : t'.current = t.current
  directories : (∀ way, t'.hasDirectory way = t.hasDirectory way) ∨ t.Rooted ∧ t'.Rooted ∧ ".." ∉ parts path

theorem disk_of_not_up (hr : t.Rooted) {path last : String} (hup : ".." ∉ parts path)
    (hl : (parts path).getLast? = some last) (hlast : isName last = true) : t.disk path =
      if path.toList.contains '\x00' ∨ maxPathLength < path.utf8ByteSize then none else t.file? (t.names path) := by
  rw [disk, walk_of_not_up hr hlast hup hl, names_eq_foldl, foldl_follow hup]

/-- A file is found or not as before if the tree changes in other files. -/
theorem disk_eq_of_file?_eq {path last : String} (hl : (parts path).getLast? = some last) (hlast : isName last = true)
    (hways : SameWays t t' path) (hfile : t'.file? (t.names path) = t.file? (t.names path)) :
    t'.disk path = t.disk path := by
  obtain ⟨hc, hd | ⟨hr, hr', hup⟩⟩ := hways
  · rw [disk_eq, disk_eq, target?_congr hc hd]
    cases ht : t.target? path with
    | none => rfl
    | some way =>
      rw [Option.bind_some, Option.bind_some, names_of_target? ht, hfile]
  · rw [disk_of_not_up hr hup hl hlast, disk_of_not_up hr' hup hl hlast, names_congr hc, hfile]

/-! ## Files that come and go -/

/-- The file at a place stays if that at another one is taken away. -/
theorem file?_remove (t : FileTree) {path : String} {way : List String} (h : way ≠ t.names path) :
    (t.remove path).file? way = t.file? way := by
  rw [file?, file?, remove, find?_filter_key_ne h]

theorem file?_put (t : FileTree) (content : Except String Bytes) {path : String} {way : List String}
    (h : way ≠ t.names path) : (t.put path content).file? way = t.file? way := by
  rw [file?, file?, put, List.find?_cons_of_neg (by simpa using h.symm), find?_filter_key_ne h]

theorem mem_ways {directory way : List String} : directory ∈ ways way ↔ directory <+: way ∧ directory ≠ [] := by
  rw [ways, List.mem_map]
  constructor
  · intro h
    obtain ⟨n, hn, rfl⟩ := h
    refine ⟨List.take_prefix _ _, fun he => ?_⟩
    have hlength := congrArg List.length he
    rw [List.mem_range] at hn
    simp only [List.length_take, List.length_nil] at hlength
    omega
  · intro h
    obtain ⟨hstart, hne⟩ := h
    have hpos := List.length_pos_iff.mpr hne
    have hle := hstart.length_le
    refine ⟨directory.length - 1, List.mem_range.mpr (by omega), ?_⟩
    rw [Nat.sub_add_cancel hpos]
    exact (List.prefix_iff_eq_take.mp hstart).symm

theorem hasDirectory_iff {way : List String} : t.hasDirectory way = true ↔ way = [] ∨ way ∈ t.directories := by
  simp [hasDirectory]

/-- With a file come the directories that it is in, and no others. -/
theorem hasDirectory_put {path : String} {content : Except String Bytes} {way : List String} :
    (t.put path content).hasDirectory way = true ↔ t.hasDirectory way = true ∨ way <+: (t.names path).dropLast := by
  rw [hasDirectory_iff, hasDirectory_iff, put, List.mem_append, mem_ways]
  by_cases hw : way = []
  · simp [hw]
  · simp [hw, or_comm]

/-- The directories are there that a file has to be put in. -/
def HasParents (t : FileTree) (path : String) : Prop :=
  ∀ directory, directory <+: (t.names path).dropLast → t.hasDirectory directory = true

/-- A file that is put in directories that are there comes without others. -/
theorem HasParents.hasDirectory_put {path : String} (h : t.HasParents path) (content : Except String Bytes)
    (way : List String) : (t.put path content).hasDirectory way = t.hasDirectory way := by
  rw [Bool.eq_iff_iff, FileTree.hasDirectory_put, or_iff_left_of_imp (h way)]

theorem Rooted.put (hr : t.Rooted) (path : String) (content : Except String Bytes) : (t.put path content).Rooted := by
  intro directory rest content' h hne
  rw [FileTree.hasDirectory_put]
  by_cases hw : directory ++ rest = t.names path
  · refine .inr ⟨rest.dropLast, ?_⟩
    rw [← hw, List.dropLast_append_of_ne_nil hne]
  · rw [file?_put t content hw] at h
    exact .inl (hr directory rest content' h hne)

end FileTree
end JvmAccessors
