import JvmAccessors.Repository.ClassPath

/-!
# A tree of files

`FileTree` is all files and directories from the top down, as a disk that paths are looked up on. An absolute path starts
at the top, any other at the current directory. A path is walked part by part: an empty part and `.` stay, `..` goes up
unless the walk is at the top, and any other part has to name something in the directory that the walk has come to. There
are no links.
-/

namespace JvmAccessors

/-- Files and directories, each by the names on the way to it from the top. A file holds its bytes, or the reason why they
cannot be read. -/
structure FileTree where
  /-- The directory that paths start at unless they are absolute. -/
  current : List String
  files : List (List String × Except String Bytes)
  directories : List (List String)

namespace FileTree

/-- All ways on the way to somewhere, itself included. -/
def ways (way : List String) : List (List String) := (List.range way.length).map fun n => way.take (n + 1)

/-- The name that every process has for its own directory. -/
def ownDirectory : List String := ["proc", "self", "cwd"]

/-- A current directory without anything below it. -/
def empty : FileTree := ⟨ownDirectory, [], ways ownDirectory⟩

/-- The longest path that can be looked up, in bytes. -/
def maxPathLength : Nat := 4095

/-- Cuts characters at every separator. -/
def cut : List Char → List (List Char)
  | [] => [[]]
  | c :: cs =>
    match cut cs with
    | [] => [[c]]
    | part :: parts => if c = '/' then [] :: part :: parts else (c :: part) :: parts

/-- The parts of a path between the separators. -/
def parts (path : String) : List String := (cut path.toList).map String.ofList

/-- The directory that a path starts at. -/
def base (t : FileTree) (path : String) : List String := if path.toList.head? = some '/' then [] else t.current

/-- The names on the way to what a path names, without asking what is there. -/
def names (t : FileTree) (path : String) : List String :=
  (parts path).foldl (fun way part => if part = "" ∨ part = "." then way else if part = ".." then way.dropLast
    else way ++ [part]) (t.base path)

/-- What the file at the end of a way holds. -/
def file? (t : FileTree) (way : List String) : Option (Except String Bytes) := (t.files.find? (·.1 = way)).map (·.2)

/-- Whether a way leads to a directory. -/
def hasDirectory (t : FileTree) (way : List String) : Bool := way = [] || t.directories.contains way

/-- Walks on from a directory; the parts that are left have to end at a file. -/
def walk (t : FileTree) : (way : List String) → (parts : List String) → Option (Except String Bytes)
  | _, [] => none
  | way, part :: rest =>
    if part = "" ∨ part = "." then t.walk way rest
    else if part = ".." then t.walk way.dropLast rest
    else if rest = [] then t.file? (way ++ [part])
    else if t.hasDirectory (way ++ [part]) then t.walk (way ++ [part]) rest
    else none

/-- The tree as a disk. -/
def disk (t : FileTree) : Disk := fun path =>
  if path.toList.contains '\x00' ∨ maxPathLength < path.utf8ByteSize then none
  else t.walk (t.base path) (parts path)

/-- The tree with a directory, and the directories on the way to it. -/
def makeDirectory (t : FileTree) (path : String) : FileTree :=
  { t with directories := ways (t.names path) ++ t.directories }

/-- The tree with a file, in the place of the one that was there, and the directories on the way to it. -/
def put (t : FileTree) (path : String) (content : Except String Bytes) : FileTree :=
  { t with
    files := (t.names path, content) :: t.files.filter (·.1 ≠ t.names path)
    directories := ways (t.names path).dropLast ++ t.directories }

/-- The tree with a file of some bytes. -/
def write (t : FileTree) (path : String) (b : Bytes) : FileTree := t.put path (.ok b)

/-- The tree without a file. -/
def remove (t : FileTree) (path : String) : FileTree :=
  { t with files := t.files.filter (·.1 ≠ t.names path) }

end FileTree
end JvmAccessors
