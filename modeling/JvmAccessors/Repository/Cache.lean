import JvmAccessors.Accessor.Build
import JvmAccessors.Repository.InMemory

/-!
# A cache of maps

`Cache.fetch` answers the accessors of a class. The map of a class is built once, from the class file that the
repository answers then, and kept under the internal form of the name; a failure keeps nothing. All maps
without accessors are one and the same; any other map is the same as another only if it is the one kept under that name
(`MapIdentity`). What a repository is asked for is counted where it is asked (`Cache.ask`).
-/

namespace JvmAccessors

/-- Which map it is, apart from what it holds. -/
inductive MapIdentity
  /-- The one map without accessors. -/
  | sharedEmpty
  /-- The map that was kept when the cache had this many maps. -/
  | kept (serial : Nat)
  deriving DecidableEq, Repr

/-- A map that a cache hands out. -/
structure SharedMap where
  identity : MapIdentity
  map : AccessorMap
  deriving DecidableEq

/-- The map that a cache with the given number of maps keeps next. -/
def SharedMap.ofMap (serial : Nat) (m : AccessorMap) : SharedMap :=
  ⟨if m.isEmpty then .sharedEmpty else .kept serial, m⟩

/-- The maps that were built, by the internal names of their classes. -/
structure Cache where
  entries : List (String × SharedMap)

/-- What came of asking a cache for a map. -/
structure Fetched (ε : Type) where
  cache : Cache
  /-- The names that the repository was asked for. -/
  lookups : List String
  result : Traced ε SharedMap

/-- Something that may ask a repository for class files; the names that it asks for are added to those before. -/
abbrev Asking := StateM (List String)

namespace Cache

/-- The cache without maps. -/
def empty : Cache := ⟨[]⟩

/-- How many maps a cache keeps. -/
def size (c : Cache) : Nat := c.entries.length

/-- The map kept under an internal name. -/
def find? (c : Cache) (internal : String) : Option SharedMap := (c.entries.find? (·.1 = internal)).map (·.2)

section Fetches

variable {ε : Type} (fail : AccessError → ε) (lookup : String → Traced ε ClassFile) (start : String)

/-- Asks a repository for the class file of a name. -/
def ask (name : String) : Asking (Traced ε ClassFile) := do
  modify (· ++ [name])
  return lookup name

/-- The map of a class, given what a repository answers. -/
def mapOf (answer : Traced ε ClassFile) : Traced ε AccessorMap :=
  answer.andThen fun file => (AccessorMap.build file start).mapError fun e => fail (.internal e.report)

/-- Builds the map of a class of the repository. -/
def buildMap (internal : String) : Asking (Traced ε AccessorMap) := do
  return mapOf fail start (← ask lookup internal)

/-- Keeps a map that was built, if it was, under an internal name. -/
def keep (c : Cache) (internal : String) (built : Traced ε AccessorMap) : Cache × Traced ε SharedMap :=
  match built.outcome with
  | .error e => (c, ⟨built.events, .error e⟩)
  | .ok m =>
    let shared := SharedMap.ofMap c.size m
    (⟨(internal, shared) :: c.entries⟩, ⟨built.events, .ok shared⟩)

/-- The accessors of a class whose names start with the given text, and the cache from then on. -/
def get (c : Cache) (name : String) : Asking (Cache × Traced ε SharedMap) := do
  let internal := ClassName.internal name
  match c.find? internal with
  | some shared => return (c, ⟨[.hit internal], .ok shared⟩)
  | none => return c.keep internal ((← buildMap fail lookup start internal).after (.miss internal))

/-- What comes of asking a cache for the accessors of a class, given how failures are told. -/
def fetchBy (c : Cache) (name : String) : Fetched ε :=
  let (answer, lookups) := (get fail lookup start c name).run []
  ⟨answer.1, lookups, answer.2⟩

end Fetches

/-- What comes of asking a cache for the accessors of a class. -/
def fetch (lookup : Lookup) (start : String) (c : Cache) (name : String) : Fetched AccessError :=
  fetchBy id lookup start c name

end Cache
end JvmAccessors
