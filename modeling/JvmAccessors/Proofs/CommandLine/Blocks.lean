import JvmAccessors.CommandLine.Run
import JvmAccessors.ClassFile.Layout
import JvmAccessors.Proofs.ClassFile.Counter
import JvmAccessors.Proofs.Repository.Session

/-!
# The output of a run, argument by argument

All arguments of a run share one cache and one mark of failure. While the files stay as they are, the cache keeps only
maps that looking up and building would give once more (`Cache.Faithful`), so that a fetch answers what it would answer
without a cache (`Cache.Faithful.outcome_fetch`). A run therefore tells of each argument what comes of it apart from
the run (`Run.Tells`): one step keeps this (`Run.Tells.step`), and so does a whole run (`Run.Tells.foldl`), as long as
the program does not stop.

It stops at an argument whose class file has slots that cannot be numbered, if its build is checked
(`Options.stops_iff`); it tells of no argument after that (`Run.step_of_stops`, `Run.foldl_of_stopped`). Main statement:
the output is a block for each argument up to there, and the exit code is one exactly if an argument fails apart from the
run (`Run.ofBuild_blocks`).
-/

namespace JvmAccessors

/-! ## Caches that keep what is built -/

namespace Cache

variable {ε : Type} {fail : AccessError → ε} {lookup : String → Traced ε ClassFile} {start : String} {c : Cache}

/-- The cache keeps under a name only what looking up and building it gives. -/
def Faithful (fail : AccessError → ε) (lookup : String → Traced ε ClassFile) (start : String) (c : Cache) : Prop :=
  ∀ key shared, c.find? key = some shared → (mapOf fail start (lookup key)).outcome = .ok shared.map

/-- A fetch keeps nothing that building does not give. -/
theorem Faithful.fetch (h : c.Faithful fail lookup start) (name : String) :
    (c.fetchBy fail lookup start name).cache.Faithful fail lookup start := by
  cases fetchBy_spec fail lookup start c name with
  | hit _ _ _ hc _ => rw [hc]; exact h
  | failed _ _ _ _ hc _ => rw [hc]; exact h
  | built m _ hb _ hc _ =>
    rw [hc]
    intro key shared hk
    rw [find?_cons] at hk
    split at hk
    · rename_i he
      cases hk
      rw [← he]
      exact hb
    · exact h key shared hk

/-- A fetch answers what building gives, whether it builds or not. -/
theorem Faithful.outcome_fetch (h : c.Faithful fail lookup start) (name : String) :
    (c.fetchBy fail lookup start name).result.outcome.map SharedMap.map =
      (mapOf fail start (lookup (ClassName.internal name))).outcome := by
  cases fetchBy_spec fail lookup start c name with
  | hit shared hk _ _ ho => rw [ho, h _ _ hk]; rfl
  | failed e _ hb _ _ ho => rw [ho, hb]; rfl
  | built m _ hb _ _ ho => rw [ho, hb]; rfl

end Cache

/-! ## One argument -/

namespace Options

/-- What comes of an argument on its own: its class is looked up, and its map is built. -/
def accessors (o : Options) (build : Build) (disk : Disk) (argument : String) :
    Except (Ending AccessError) AccessorMap := do
  let file ← (ClassPath.lookupIn build disk ⟨o.classPath⟩ (ClassName.internal argument)).outcome
  (AccessorMap.build file o.nameStart).outcome.mapError fun e => .failed (.internal e.report)

/-- Whether the program stops at an argument on its own. -/
def stops (o : Options) (build : Build) (disk : Disk) (argument : String) : Bool :=
  match o.accessors build disk argument with
  | .error .stopped => true
  | _ => false

variable {o : Options} {build : Build} {disk : Disk} {argument : String}

theorem outcome_mapOf : (Cache.mapOf .failed o.nameStart
    (ClassPath.lookupIn build disk ⟨o.classPath⟩ (ClassName.internal argument))).outcome =
      o.accessors build disk argument := by
  unfold accessors
  cases h : (ClassPath.lookupIn build disk ⟨o.classPath⟩ (ClassName.internal argument)).outcome with
  | error e => rw [Cache.mapOf_of_error o.nameStart h]; rfl
  | ok file => rw [Cache.mapOf_of_ok o.nameStart h]; rfl

theorem stops_eq_true_iff : o.stops build disk argument = true ↔ o.accessors build disk argument = .error .stopped := by
  unfold stops
  split <;> simp_all

end Options

namespace Run

/-- The line of an accessor, as it is spelled: what it is called, its signature, and what it does to which field. -/
def lineOf (argument : String) (a : Accessor) : String :=
  argument ++ "." ++ a.name ++ " " ++ a.signature ++ " -> " ++
    (if a.direction = .read then "read" else "write") ++ " " ++
    (if a.field.isStatic then "static" else "instance") ++ " " ++ a.field.owner ++ "." ++ a.field.name ++ " " ++
    a.field.type ++ "\n"

/-- The block of an argument: nothing if it fails, otherwise a line for each accessor. -/
def blockText (argument : String) : Except (Ending AccessError) AccessorMap → String
  | .error _ => ""
  | .ok m => String.join (m.accessors.map (lineOf argument))

theorem text_eq (a : Accessor) : a.text = a.name ++ " " ++ a.signature ++ " -> " ++ a.direction.text ++ " " ++
    a.field.text := rfl

theorem join_block (argument : String) (m : AccessorMap) :
    String.join ((block argument m).map (· ++ "\n")) = blockText argument (.ok m) := by
  rw [blockText, block, List.map_map]
  refine congrArg String.join (List.map_congr_left fun a _ => ?_)
  show argument ++ "." ++ a.text ++ "\n" = _
  delta lineOf
  rw [text_eq, Direction.text_eq, FieldRef.text_eq]
  simp only [String.append_assoc]

theorem outputText_append_block (r : Run) (argument : String) (m : AccessorMap) :
    String.join ((r.output ++ block argument m).map (· ++ "\n")) = r.outputText ++ blockText argument (.ok m) := by
  rw [List.map_append, String.join_append, join_block, outputText]

/-! ## A run over arguments -/

/-- **What holds of a run over arguments**: it goes on, its cache is faithful, its output is a block for each argument in
turn, and it is marked as failed exactly if one of them fails on its own. -/
structure Tells (o : Options) (build : Build) (disk : Disk) (arguments : List String) (r : Run) : Prop where
  running : r.stopped = false
  faithful : r.cache.Faithful .failed (ClassPath.lookupIn build disk ⟨o.classPath⟩) o.nameStart
  output : r.outputText = String.join (arguments.map fun x => blockText x (o.accessors build disk x))
  failed : r.failed = true ↔ ∃ x ∈ arguments, ∃ e, o.accessors build disk x = .error (.failed e)

variable {o : Options} {build : Build} {disk : Disk} {arguments : List String} {r : Run}

/-- The run of some options after one more class. -/
abbrev next (o : Options) (build : Build) (disk : Disk) : Run → String → Run :=
  step (ClassPath.lookupIn build disk ⟨o.classPath⟩) o.nameStart

/-- A step adds the block of its argument, and its failure. -/
theorem Tells.step (h : Tells o build disk arguments r) {x : String} (hx : o.stops build disk x = false) :
    Tells o build disk (arguments ++ [x]) (next o build disk r x) := by
  have hc := h.faithful.fetch x
  have ho := h.faithful.outcome_fetch x
  rw [Options.outcome_mapOf] at ho
  have hrunning : ¬ r.stopped = true := by rw [h.running]; nofun
  simp only [next, Run.step, if_neg hrunning]
  cases hf : (r.cache.fetchBy .failed (ClassPath.lookupIn build disk ⟨o.classPath⟩) o.nameStart x).result.outcome with
  | error e =>
    have hx' : o.accessors build disk x = .error e := by rw [← ho, hf]; rfl
    cases e with
    | stopped =>
      rw [Options.stops_eq_true_iff.mpr hx'] at hx
      cases hx
    | failed e =>
      refine ⟨rfl, hc, ?_, ?_⟩
      · rw [List.map_append, String.join_append, ← h.output, List.map_singleton, hx']
        simp [blockText, outputText]
      · simp [hx']
  | ok shared =>
    have hx' : o.accessors build disk x = .ok shared.map := by rw [← ho, hf]; rfl
    refine ⟨rfl, hc, ?_, ?_⟩
    · rw [List.map_append, String.join_append, ← h.output, List.map_singleton, hx', outputText,
        outputText_append_block]
      simp
    · simp [h.failed, hx']

/-- A run over more arguments adds their blocks, and their failures. -/
theorem Tells.foldl : ∀ (xs : List String) {arguments : List String} {r : Run}, Tells o build disk arguments r →
    (∀ x ∈ xs, o.stops build disk x = false) → Tells o build disk (arguments ++ xs) (xs.foldl (next o build disk) r)
  | [], arguments, _, h, _ => by rwa [List.append_nil]
  | x :: xs, arguments, _, h, hxs => by
    obtain ⟨hx, hxs⟩ := List.forall_mem_cons.mp hxs
    rw [List.append_cons]
    exact Tells.foldl xs (h.step hx) hxs

end Run
end JvmAccessors
