import JvmAccessors.Proofs.Outcome
import JvmAccessors.Repository.Cache

/-!
# Sessions of a cache

A session asks one cache for maps, one after the other, while the repository may answer something else each time. What a
fetch does is said once (`Cache.fetchBy_spec`); every reachable session then keeps exactly the maps that it has answered,
under names without `.`, and has asked the repository once for each of them and once for each failure
(`Session.Invariant`, `Session.Reachable.invariant`).
-/

namespace JvmAccessors

namespace Cache

section Spec

variable {ε : Type}

/-- What comes of a fetch: a map that is kept, a failure, or a map that is built and kept from then on. -/
inductive Fetches (fail : AccessError → ε) (lookup : String → Traced ε ClassFile) (start : String) (c : Cache)
    (key : String) (r : Fetched ε) : Prop
  | hit (shared : SharedMap) : c.find? key = some shared → r.lookups = [] → r.cache = c →
      r.result.outcome = .ok shared → Fetches fail lookup start c key r
  | failed (e : ε) : c.find? key = none → (mapOf fail start (lookup key)).outcome = .error e →
      r.lookups = [key] → r.cache = c → r.result.outcome = .error e → Fetches fail lookup start c key r
  | built (m : AccessorMap) : c.find? key = none → (mapOf fail start (lookup key)).outcome = .ok m → r.lookups = [key] →
      r.cache = ⟨(key, .ofMap c.size m) :: c.entries⟩ → r.result.outcome = .ok (.ofMap c.size m) →
      Fetches fail lookup start c key r

variable (fail : AccessError → ε) (lookup : String → Traced ε ClassFile) (start : String)

theorem run_get_of_some {c : Cache} {name : String} {shared : SharedMap}
    (h : c.find? (ClassName.internal name) = some shared) (asked : List String) :
    (get fail lookup start c name).run asked = ((c, ⟨[.hit (ClassName.internal name)], .ok shared⟩), asked) := by
  simp only [get, h]
  rfl

/-- A repository is asked once for the name of a class that has no map, whatever it answers. -/
theorem run_get_of_none {c : Cache} {name : String} (h : c.find? (ClassName.internal name) = none)
    (asked : List String) : (get fail lookup start c name).run asked =
      (c.keep (ClassName.internal name)
        ((mapOf fail start (lookup (ClassName.internal name))).after (.miss (ClassName.internal name))),
        asked ++ [ClassName.internal name]) := by
  simp only [get, h]
  rfl

/-- A fetch is one of these three. -/
theorem fetchBy_spec (c : Cache) (name : String) :
    Fetches fail lookup start c (ClassName.internal name) (fetchBy fail lookup start c name) := by
  have hb : ((mapOf fail start (lookup (ClassName.internal name))).after (.miss (ClassName.internal name))).outcome =
      (mapOf fail start (lookup (ClassName.internal name))).outcome := rfl
  cases hf : c.find? (ClassName.internal name) with
  | some shared =>
    rw [fetchBy, run_get_of_some fail lookup start hf]
    exact .hit shared hf rfl rfl rfl
  | none =>
    rw [fetchBy, run_get_of_none fail lookup start hf]
    cases ho : (mapOf fail start (lookup (ClassName.internal name))).outcome with
    | error e =>
      simp only [keep, hb, ho]
      exact .failed e hf ho rfl rfl rfl
    | ok m =>
      simp only [keep, hb, ho]
      exact .built m hf ho rfl rfl rfl

end Spec

theorem fetch_spec (lookup : Lookup) (start : String) (c : Cache) (name : String) :
    Fetches id lookup start c (ClassName.internal name) (c.fetch lookup start name) :=
  fetchBy_spec id lookup start c name

theorem find?_cons (key k : String) (shared : SharedMap) (entries : List (String × SharedMap)) :
    (Cache.mk ((key, shared) :: entries)).find? k = if key = k then some shared else (Cache.mk entries).find? k := by
  by_cases h : key = k <;> simp [find?, h]

theorem not_mem_keys_of_find? {c : Cache} {key : String} (h : c.find? key = none) : key ∉ c.entries.map (·.1) := by
  simp only [find?, Option.map_eq_none_iff, List.find?_eq_none, decide_eq_true_eq] at h
  intro hk
  obtain ⟨entry, he, hk⟩ := List.mem_map.mp hk
  exact h entry he hk

theorem mapOf_of_ok {ε : Type} {fail : AccessError → ε} {answer : Traced ε ClassFile} {file : ClassFile}
    (start : String) (h : answer.outcome = .ok file) : (mapOf fail start answer).outcome =
      (AccessorMap.build file start).outcome.mapError fun e => fail (.internal e.report) := by
  simp only [mapOf, Traced.andThen, h]
  rfl

theorem mapOf_of_error {ε : Type} {fail : AccessError → ε} {answer : Traced ε ClassFile} {e : ε} (start : String)
    (h : answer.outcome = .error e) : (mapOf fail start answer).outcome = .error e := by
  simp only [mapOf, Traced.andThen, h]

end Cache

/-- Whether a fetch failed. -/
def Fetched.failed (r : Fetched AccessError) : Bool :=
  match r.result.outcome with
  | .error _ => true
  | .ok _ => false

/-- A request for a map: the name of the class, and what the repository answers at that moment. -/
structure Call where
  name : String
  lookup : Lookup

def Call.key (call : Call) : String := ClassName.internal call.name

/-- The calls of a cache so far, with what came of each, and the cache after them. -/
structure Session where
  gets : List (Call × Fetched AccessError)
  cache : Cache

namespace Session

/-- The session before the first call. -/
def empty : Session := ⟨[], .empty⟩

def fetch (start : String) (s : Session) (call : Call) : Fetched AccessError :=
  s.cache.fetch call.lookup start call.name

def get (start : String) (s : Session) (call : Call) : Session :=
  ⟨s.gets ++ [(call, s.fetch start call)], (s.fetch start call).cache⟩

/-- The session after more calls. -/
def after (start : String) (s : Session) (calls : List Call) : Session := calls.foldl (get start) s

/-- The sessions that calls lead to, whatever the repository answers to each. -/
inductive Reachable (start : String) : Session → Prop
  | empty : Reachable start .empty
  | get {s : Session} (call : Call) : Reachable start s → Reachable start (s.get start call)

/-- Some call of a session was answered with a map for a name. -/
def Answered (s : Session) (key : String) (shared : SharedMap) : Prop :=
  ∃ g ∈ s.gets, g.1.key = key ∧ g.2.result.outcome = .ok shared

def lookups (s : Session) : List String := s.gets.flatMap fun g => g.2.lookups

def failures (s : Session) : Nat := s.gets.countP fun g => g.2.failed

/-- **What holds of every session**: the cache keeps exactly the maps that were answered, under names without `.`, and
the repository was asked once for each of them and once for each failure. -/
structure Invariant (s : Session) : Prop where
  kept : ∀ key shared, s.cache.find? key = some shared ↔ s.Answered key shared
  keys : ∀ entry ∈ s.cache.entries, '.' ∉ entry.1.toList
  distinct : (s.cache.entries.map (·.1)).Nodup
  count : s.lookups.length = s.cache.size + s.failures

variable {start : String} {s : Session}

theorem answered_get {call : Call} {key : String} {shared : SharedMap} : (s.get start call).Answered key shared ↔
    s.Answered key shared ∨ call.key = key ∧ (s.fetch start call).result.outcome = .ok shared := by
  simp [Answered, get, or_and_right, exists_or]

theorem lookups_get (call : Call) : (s.get start call).lookups = s.lookups ++ (s.fetch start call).lookups := by
  simp [lookups, get]

theorem failures_get (call : Call) :
    (s.get start call).failures = s.failures + if (s.fetch start call).failed then 1 else 0 := by
  simp [failures, get, List.countP_cons]

/-- What comes of a call. -/
theorem fetch_spec (start : String) (s : Session) (call : Call) :
    Cache.Fetches id call.lookup start s.cache call.key (s.fetch start call) :=
  Cache.fetch_spec call.lookup start s.cache call.name

/-- A call takes no map away and changes none. -/
theorem find?_get {key : String} {shared : SharedMap} (h : s.cache.find? key = some shared) (call : Call) :
    (s.get start call).cache.find? key = some shared := by
  show (s.fetch start call).cache.find? key = some shared
  cases s.fetch_spec start call with
  | hit _ _ _ hc _ => rw [hc, h]
  | failed _ _ _ _ hc _ => rw [hc, h]
  | built m hn _ _ hc _ =>
    -- the new map stands in front of the others, but under a name that had none
    have hk : call.key ≠ key := by
      rintro rfl
      rw [h] at hn
      cases hn
    rw [hc, Cache.find?_cons, if_neg hk]
    exact h

theorem find?_after {key : String} {shared : SharedMap} : ∀ (calls : List Call) {s : Session},
    s.cache.find? key = some shared → (s.after start calls).cache.find? key = some shared
  | [], _, h => h
  | call :: calls, _, h => find?_after calls (find?_get h call)

/-! ## The invariant of sessions -/

theorem Invariant.kept_get (h : s.Invariant) (call : Call) (key : String) (shared : SharedMap) :
    (s.get start call).cache.find? key = some shared ↔ (s.get start call).Answered key shared := by
  rw [answered_get, ← h.kept]
  show (s.fetch start call).cache.find? key = some shared ↔ _
  cases s.fetch_spec start call with
  | hit old hf _ hc ho =>
    rw [hc, ho]
    constructor
    · exact .inl
    · rintro (hk | ⟨rfl, he⟩)
      · exact hk
      · cases he
        exact hf
  | failed e _ _ _ hc ho =>
    rw [hc, ho]
    simp
  | built m hn _ _ hc ho =>
    rw [hc, ho, Cache.find?_cons]
    by_cases hk : call.key = key
    · subst hk
      simp [hn]
    · simp [hk]

theorem Invariant.keys_get (h : s.Invariant) (call : Call) :
    ∀ entry ∈ (s.get start call).cache.entries, '.' ∉ entry.1.toList := by
  show ∀ entry ∈ (s.fetch start call).cache.entries, _
  cases s.fetch_spec start call with
  | hit _ _ _ hc _ => rw [hc]; exact h.keys
  | failed _ _ _ _ hc _ => rw [hc]; exact h.keys
  | built m _ _ _ hc _ =>
    rw [hc]
    exact List.forall_mem_cons.mpr ⟨ClassName.not_mem_internal call.name, h.keys⟩

theorem Invariant.distinct_get (h : s.Invariant) (call : Call) :
    ((s.get start call).cache.entries.map (·.1)).Nodup := by
  show ((s.fetch start call).cache.entries.map (·.1)).Nodup
  cases s.fetch_spec start call with
  | hit _ _ _ hc _ => rw [hc]; exact h.distinct
  | failed _ _ _ _ hc _ => rw [hc]; exact h.distinct
  | built m hn _ _ hc _ =>
    rw [hc]
    exact List.nodup_cons.mpr ⟨Cache.not_mem_keys_of_find? hn, h.distinct⟩

theorem Invariant.count_get (h : s.Invariant) (call : Call) :
    (s.get start call).lookups.length = (s.get start call).cache.size + (s.get start call).failures := by
  have hs := h.count
  rw [lookups_get, failures_get, List.length_append]
  show _ = (s.fetch start call).cache.size + _
  cases s.fetch_spec start call with
  | hit _ _ hl hc ho =>
    have hf : (s.fetch start call).failed = false := by simp only [Fetched.failed, ho]
    simp only [hl, hc, hf, List.length_nil, Bool.false_eq_true, if_false]
    omega
  | failed _ _ _ hl hc ho =>
    have hf : (s.fetch start call).failed = true := by simp only [Fetched.failed, ho]
    simp only [hl, hc, hf, List.length_singleton, if_true]
    omega
  | built m _ _ hl hc ho =>
    have hf : (s.fetch start call).failed = false := by simp only [Fetched.failed, ho]
    have hsize : (s.fetch start call).cache.size = s.cache.size + 1 := by rw [hc]; rfl
    simp only [hl, hsize, hf, List.length_singleton, Bool.false_eq_true, if_false]
    omega

/-- Every session that can be reached keeps the invariant. -/
theorem Reachable.invariant (h : Reachable start s) : s.Invariant := by
  induction h with
  | empty =>
    refine ⟨fun key shared => ⟨nofun, ?_⟩, nofun, .nil, rfl⟩
    rintro ⟨_, hg, _⟩
    cases hg
  | get call _ ih => exact ⟨ih.kept_get call, ih.keys_get call, ih.distinct_get call, ih.count_get call⟩

/-- What a call does if its name has no map: it asks the repository once, for that name, answers what this gives, and
keeps the answer exactly if it is a map. -/
structure Misses (start : String) (c : Cache) (call : Call) (r : Fetched AccessError) : Prop where
  lookups : r.lookups = [call.key]
  notFound : ∀ e, (call.lookup call.key).outcome = .error e → r.result.outcome = .error e ∧ r.cache = c
  notBuilt : ∀ file e, (call.lookup call.key).outcome = .ok file → (AccessorMap.build file start).outcome = .error e →
    r.result.outcome = .error (.internal e.report) ∧ r.cache = c
  built : ∀ file m, (call.lookup call.key).outcome = .ok file → (AccessorMap.build file start).outcome = .ok m →
    r.result.outcome = .ok (.ofMap c.size m) ∧ r.cache = ⟨(call.key, .ofMap c.size m) :: c.entries⟩

theorem misses_of_find? {call : Call} (hn : s.cache.find? call.key = none) :
    Misses start s.cache call (s.fetch start call) := by
  cases s.fetch_spec start call with
  | hit shared hs => cases hn.symm.trans hs
  | failed e _ hb hl hc ho =>
    refine ⟨hl, fun e' he => ?_, fun file e' hf he => ?_, fun file m hf hm => ?_⟩
    · cases hb.symm.trans (Cache.mapOf_of_error start he)
      exact ⟨ho, hc⟩
    · rw [Cache.mapOf_of_ok start hf, he] at hb
      cases hb
      exact ⟨ho, hc⟩
    · rw [Cache.mapOf_of_ok start hf, hm] at hb
      cases hb
  | built m _ hb hl hc ho =>
    refine ⟨hl, fun e' he => ?_, fun file e' hf he => ?_, fun file m hf hm => ?_⟩
    · cases hb.symm.trans (Cache.mapOf_of_error start he)
    · rw [Cache.mapOf_of_ok start hf, he] at hb
      cases hb
    · rw [Cache.mapOf_of_ok start hf, hm] at hb
      cases hb
      exact ⟨ho, hc⟩

/-- **What a cache does in a session.** A call for a name that was answered before has the same answer and asks the
repository nothing; any other call asks it once. A failure leaves the cache as it was; what is kept stays. The cache
keeps exactly what was answered, under distinct names without `.`, and the repository was asked once for each map that is
kept and once for each failure. -/
theorem Reachable.fetch_sound (h : Reachable start s) :
    (∀ call shared, s.Answered call.key shared → (s.fetch start call).result.outcome = .ok shared ∧
      (s.fetch start call).lookups = [] ∧ (s.fetch start call).cache = s.cache) ∧
    (∀ call, (∀ shared, ¬ s.Answered call.key shared) → Misses start s.cache call (s.fetch start call)) ∧
    (∀ call e, (s.fetch start call).result.outcome = .error e → (s.fetch start call).cache = s.cache) ∧
    (∀ key shared, s.cache.find? key = some shared ↔ s.Answered key shared) ∧
    (∀ key shared, s.cache.find? key = some shared → ∀ calls, (s.after start calls).cache.find? key = some shared) ∧
    (∀ entry ∈ s.cache.entries, '.' ∉ entry.1.toList) ∧ (s.cache.entries.map (·.1)).Nodup ∧
    s.lookups.length = s.cache.size + s.failures := by
  have hi := h.invariant
  refine ⟨fun call shared ha => ?_, fun call hn => ?_, fun call e he => ?_, hi.kept, fun key shared hk calls =>
    find?_after calls hk, hi.keys, hi.distinct, hi.count⟩
  · have hk := (hi.kept call.key shared).mpr ha
    cases s.fetch_spec start call with
    | hit shared' hs hl hc ho =>
      cases hk.symm.trans hs
      exact ⟨ho, hl, hc⟩
    | failed _ hn => cases hn.symm.trans hk
    | built _ hn => cases hn.symm.trans hk
  · refine misses_of_find? (Option.eq_none_iff_forall_ne_some.mpr fun shared hs => ?_)
    exact hn shared ((hi.kept call.key shared).mp hs)
  · cases s.fetch_spec start call with
    | hit _ _ _ _ ho => cases ho.symm.trans he
    | failed _ _ _ _ hc _ => exact hc
    | built _ _ _ _ _ ho => cases ho.symm.trans he

/-- A class `C` without methods. -/
def bareClass : ClassFile where
  minor := 0
  major := 52
  pool := .ofConstants [.utf8 [0x43], .classRef 1]
  flags := 0x0020
  thisClass := 2
  superClass := none
  interfaces := []
  fields := []
  methods := []
  attributes := []

/-- A call while the repository has no class. -/
def callWithout (name : String) : Call := ⟨name, fun internal => .ofExcept (.error (.classNotFound internal))⟩

/-- A call while the repository has the class. -/
def callWith (name : String) : Call := ⟨name, fun _ => .ofExcept (.ok bareClass)⟩

/-- A class that is not there at first, then is asked for, and is gone again: the map that was kept is the answer. -/
theorem fetch_after_removal :
    let s := (Session.empty.get "access$" (callWithout "p.C")).get "access$" (callWith "p.C")
    (s.fetch "access$" (callWithout "p/C")).result.outcome = .ok ⟨.sharedEmpty, .empty⟩ ∧
      (s.fetch "access$" (callWithout "p/C")).lookups = [] ∧ s.lookups.length = s.cache.size + s.failures := by
  intro s
  have hs : Reachable "access$" s := .get _ (.get _ .empty)
  have hk : (callWith "p.C").key = (callWithout "p/C").key := by decide +kernel
  have ha : s.Answered (callWithout "p/C").key ⟨.sharedEmpty, .empty⟩ :=
    ⟨(callWith "p.C", _), List.mem_append_right _ (List.mem_singleton.mpr rfl), hk,
      Outcome.toOption_eq_some.mp (by decide +kernel)⟩
  obtain ⟨hhit, -, -, -, -, -, -, hcount⟩ := hs.fetch_sound
  obtain ⟨ho, hl, -⟩ := hhit (callWithout "p/C") _ ha
  exact ⟨ho, hl, hcount⟩

end Session
end JvmAccessors
