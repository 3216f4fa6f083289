import JvmAccessors.Proofs.ClassFile.Image
import JvmAccessors.Proofs.ClassFile.Lookups

/-!
# Where the references of a pool lead

The check of a pool looks at each constant on its own: the numbers that it names have to hold constants of the kinds
that it needs (`Pool.check_eq_ok_iff`). Since a constant needs kinds that are nearer to texts than its own
(`Constant.depth_lt_of_mem_references`), every reference then leads on to a text, whatever the order of the constants
(`Pool.Resolves`, `Pool.resolves_of_check`). So in the pool of a class file a text fails only for its bytes
(`ClassFile.parse_references_resolve`).
-/

namespace JvmAccessors

namespace Constant

/-- The numbers that a constant names, each with the kind of constant that it needs there. The number that a method
handle names may hold several kinds and is not looked up. -/
def references : Constant → List (Tag × Index)
  | classRef name | moduleRef name | packageRef name => [(.utf8, name)]
  | string text => [(.utf8, text)]
  | methodType descriptor => [(.utf8, descriptor)]
  | fieldRef owner pair | methodRef owner pair | interfaceMethodRef owner pair =>
    [(.classRef, owner), (.nameAndType, pair)]
  | nameAndType name descriptor => [(.utf8, name), (.utf8, descriptor)]
  | dynamic _ pair | invokeDynamic _ pair => [(.nameAndType, pair)]
  | integer _ | float _ | long _ | double _ | utf8 _ | methodHandle _ _ => []

end Constant

/-- How many references in a row a constant of a kind can lead through. -/
def Tag.depth : Tag → Nat
  | utf8 | integer | float | long | double | methodHandle => 0
  | classRef | string | nameAndType | methodType | moduleRef | packageRef => 1
  | fieldRef | methodRef | interfaceMethodRef | dynamic | invokeDynamic => 2

/-- A constant needs only kinds that are nearer to a text than its own. -/
theorem Constant.depth_lt_of_mem_references (k : Constant) : ∀ r ∈ k.references, r.1.depth < k.tag.depth := by
  cases k <;> simp [references, tag, Tag.depth]

namespace Pool

variable {p : Pool} {i : Index}

/-- **A number leads to a constant of a kind**, and so does each number that this constant names. -/
inductive Resolves (p : Pool) : Tag → Index → Prop
  | intro {i : Index} {k : Constant} : p.Holds i k → (∀ r ∈ k.references, p.Resolves r.1 r.2) → p.Resolves k.tag i

/-! ## The check -/

/-- A constant passes if the numbers that it names hold constants of the kinds that it needs. -/
theorem checkConstant_eq_ok_iff {k : Constant} :
    p.checkConstant k = .ok () ↔ ∀ r ∈ k.references, ∃ k', p.Holds r.2 k' ∧ k'.tag = r.1 := by
  have hu (i : Index) : (∃ bytes, p.utf8At i = .ok bytes) ↔ ∃ k, p.Holds i k ∧ k.tag = .utf8 := exists_demand
  have hc (i : Index) : (∃ name, p.classAt i = .ok name) ↔ ∃ k, p.Holds i k ∧ k.tag = .classRef := exists_demand
  have hn (i : Index) : (∃ pair, p.nameAndTypeAt i = .ok pair) ↔ ∃ k, p.Holds i k ∧ k.tag = .nameAndType :=
    exists_demand
  cases k <;> simp only [checkConstant, Constant.references, Outcome.bind_eq_ok, Outcome.discard_eq_ok, hu, hc, hn,
    List.forall_mem_cons, List.not_mem_nil, false_implies, implies_true, and_true, exists_and_left, exists_const]

/-- Slots pass the check if the constants among them do. -/
theorem checkSlots_eq_ok_iff : ∀ slots : List Slot,
    p.checkSlots slots = .ok () ↔ ∀ k, Slot.constant k ∈ slots → p.checkConstant k = .ok ()
  | [] => by simp [checkSlots]
  | .reserved :: rest => by simp [checkSlots, checkSlots_eq_ok_iff rest]
  | .constant k :: rest => by
    rw [checkSlots]
    cases hk : p.checkConstant k with
    | error e =>
      refine ⟨nofun, fun h => ?_⟩
      have hk' := h k List.mem_cons_self
      rw [hk] at hk'
      cases hk'
    | ok _ =>
      simp only [List.mem_cons, Slot.constant.injEq, forall_eq_or_imp, hk, true_and, checkSlots_eq_ok_iff rest]

/-- **A pool passes the check** if each of its constants names only numbers that hold constants of the kinds that it
needs. -/
theorem check_eq_ok_iff : p.check = .ok () ↔
    ∀ k, Slot.constant k ∈ p.slots.toList → ∀ r ∈ k.references, ∃ k', p.Holds r.2 k' ∧ k'.tag = r.1 := by
  simp only [check, checkSlots_eq_ok_iff, checkConstant_eq_ok_iff]

/-- In a pool that passes the check a number leads on from the constant that it stands for. -/
theorem resolves_of_holds (hc : p.check = .ok ()) : ∀ (n : Nat) {i : Index} {k : Constant}, k.tag.depth < n →
    p.Holds i k → p.Resolves k.tag i
  | 0, _, _, hn, _ => absurd hn (Nat.not_lt_zero _)
  | n + 1, i, k, hn, hk => by
    -- the references of `k` need kinds that are nearer to a text
    refine .intro hk fun r hr => ?_
    obtain ⟨k', hk', ht⟩ := check_eq_ok_iff.mp hc k (mem_of_holds hk) r hr
    have hd := Constant.depth_lt_of_mem_references k r hr
    rw [← ht] at hd ⊢
    exact resolves_of_holds hc n (by omega) hk'

/-- In a pool that passes the check every reference of every constant leads to a constant of the kind that it needs,
and on from there. -/
theorem resolves_of_check (hc : p.check = .ok ()) {k : Constant} (hk : Slot.constant k ∈ p.slots.toList) :
    ∀ r ∈ k.references, p.Resolves r.1 r.2 := by
  intro r hr
  obtain ⟨k', hk', ht⟩ := check_eq_ok_iff.mp hc k hk r hr
  rw [← ht]
  exact resolves_of_holds hc _ (Nat.lt_succ_self _) hk'

/-! ## Texts -/

theorem Resolves.exists_constant {tag : Tag} (h : p.Resolves tag i) :
    ∃ k, p.Holds i k ∧ k.tag = tag ∧ ∀ r ∈ k.references, p.Resolves r.1 r.2 := by
  cases h with
  | intro hk hr => exact ⟨_, hk, rfl, hr⟩

theorem Resolves.utf8 (h : p.Resolves .utf8 i) : ∃ bytes, p.Holds i (.utf8 bytes) := by
  obtain ⟨k, hk, ht, -⟩ := h.exists_constant
  cases k <;> cases ht
  exact ⟨_, hk⟩

theorem Resolves.classRef (h : p.Resolves .classRef i) :
    ∃ name, p.Holds i (.classRef name) ∧ p.Resolves .utf8 name := by
  obtain ⟨k, hk, ht, hr⟩ := h.exists_constant
  cases k <;> cases ht
  exact ⟨_, hk, hr _ List.mem_cons_self⟩

theorem Resolves.nameAndType (h : p.Resolves .nameAndType i) : ∃ name descriptor,
    p.Holds i (.nameAndType name descriptor) ∧ p.Resolves .utf8 name ∧ p.Resolves .utf8 descriptor := by
  obtain ⟨k, hk, ht, hr⟩ := h.exists_constant
  cases k <;> cases ht
  exact ⟨_, _, hk, hr _ List.mem_cons_self, hr _ (List.mem_cons_of_mem _ List.mem_cons_self)⟩

/-- The texts of a field can be had exactly if the bytes of all three are those of one. -/
theorem exists_fieldParts_iff {owner pair ownerName name descriptor : Index} {b₁ b₂ b₃ : Bytes}
    (ho : p.Holds owner (.classRef ownerName)) (hp : p.Holds pair (.nameAndType name descriptor))
    (h₁ : p.Holds ownerName (.utf8 b₁)) (h₂ : p.Holds name (.utf8 b₂)) (h₃ : p.Holds descriptor (.utf8 b₃)) :
    (∃ parts, p.fieldParts owner pair = .ok parts) ↔
      ModifiedUtf8.Canonical b₁ ∧ ModifiedUtf8.Canonical b₂ ∧ ModifiedUtf8.Canonical b₃ := by
  rw [← exists_text_iff h₁, ← exists_text_iff h₂, ← exists_text_iff h₃]
  constructor
  · rintro ⟨parts, h⟩
    obtain ⟨hc, _, _, hp', hn, hd⟩ := fieldParts_eq_ok.mp h
    obtain ⟨_, ho', ht⟩ := className_eq_ok.mp hc
    cases ho'.symm.trans (classAt_eq_ok.mpr ho)
    cases hp'.symm.trans (nameAndTypeAt_eq_ok.mpr hp)
    exact ⟨⟨_, ht⟩, ⟨_, hn⟩, ⟨_, hd⟩⟩
  · rintro ⟨⟨ownerText, ht⟩, ⟨nameText, hn⟩, ⟨type, hd⟩⟩
    refine ⟨⟨ownerText, nameText, type⟩, fieldParts_eq_ok.mpr ⟨?_, name, descriptor, ?_, hn, hd⟩⟩
    · exact className_eq_ok.mpr ⟨ownerName, classAt_eq_ok.mpr ho, ht⟩
    · exact nameAndTypeAt_eq_ok.mpr hp

end Pool

namespace ClassFile

open ModifiedUtf8 (Canonical)

theorem check_of_parse {b : Bytes} {c : ClassFile} (h : parse b = .ok c) : c.pool.check = .ok () := by
  obtain ⟨s, hr, hm⟩ := parse_eq_ok.mp h
  have hs := ((ClassImage.exact_read _ _ _).mp hr).1.2
  rw [ClassImage.means_iff.mp hm]
  exact hs

/-- **In the pool of a class file every reference leads somewhere.** Each number that a constant names leads to a
constant of the kind that is needed there, and on to texts. So the name of a class, the name and the descriptor of a
pair, and the texts of a field cannot be had exactly if bytes that they are decoded from are those of no text. -/
theorem parse_references_resolve {b : Bytes} {c : ClassFile} (h : parse b = .ok c) :
    (∀ k, Slot.constant k ∈ c.pool.slots.toList → ∀ r ∈ k.references, c.pool.Resolves r.1 r.2) ∧
    (∀ name, Slot.constant (.classRef name) ∈ c.pool.slots.toList → ∃ bytes, c.pool.Holds name (.utf8 bytes) ∧
      ((∃ e, c.pool.text name = .error e) ↔ ¬ Canonical bytes)) ∧
    (∀ name descriptor, Slot.constant (.nameAndType name descriptor) ∈ c.pool.slots.toList →
      ∃ b₁ b₂, c.pool.Holds name (.utf8 b₁) ∧ c.pool.Holds descriptor (.utf8 b₂) ∧
        ((∃ e, c.pool.text name = .error e) ↔ ¬ Canonical b₁) ∧
        ((∃ e, c.pool.text descriptor = .error e) ↔ ¬ Canonical b₂)) ∧
    ∀ owner pair, Slot.constant (.fieldRef owner pair) ∈ c.pool.slots.toList →
      ∃ ownerName name descriptor b₁ b₂ b₃, c.pool.Holds owner (.classRef ownerName) ∧
        c.pool.Holds pair (.nameAndType name descriptor) ∧ c.pool.Holds ownerName (.utf8 b₁) ∧
        c.pool.Holds name (.utf8 b₂) ∧ c.pool.Holds descriptor (.utf8 b₃) ∧
        ((∃ e, c.pool.fieldParts owner pair = .error e) ↔ ¬ Canonical b₁ ∨ ¬ Canonical b₂ ∨ ¬ Canonical b₃) := by
  have hr := fun k => Pool.resolves_of_check (k := k) (check_of_parse h)
  refine ⟨hr, fun name hk => ?_, fun name descriptor hk => ?_, fun owner pair hk => ?_⟩
  · obtain ⟨bytes, hb⟩ := (hr _ hk _ List.mem_cons_self).utf8
    exact ⟨bytes, hb, Pool.exists_text_error_iff hb⟩
  · obtain ⟨b₁, h₁⟩ := (hr _ hk _ List.mem_cons_self).utf8
    obtain ⟨b₂, h₂⟩ := (hr _ hk _ (List.mem_cons_of_mem _ List.mem_cons_self)).utf8
    exact ⟨b₁, b₂, h₁, h₂, Pool.exists_text_error_iff h₁, Pool.exists_text_error_iff h₂⟩
  · obtain ⟨ownerName, ho, hn⟩ := (hr _ hk _ List.mem_cons_self).classRef
    obtain ⟨name, descriptor, hp, h₂, h₃⟩ := (hr _ hk _ (List.mem_cons_of_mem _ List.mem_cons_self)).nameAndType
    obtain ⟨b₁, h₁⟩ := hn.utf8
    obtain ⟨b₂, h₂⟩ := h₂.utf8
    obtain ⟨b₃, h₃⟩ := h₃.utf8
    refine ⟨ownerName, name, descriptor, b₁, b₂, b₃, ho, hp, h₁, h₂, h₃, ?_⟩
    rw [Outcome.exists_error_iff, Pool.exists_fieldParts_iff ho hp h₁ h₂ h₃, Classical.not_and_iff_not_or_not,
      Classical.not_and_iff_not_or_not]

/-- A class `O` whose field constant stands before the constants that it leads to and after a `long`, which takes two
slots. -/
def forwardImage : ClassImage where
  minor := 0
  major := 52
  poolCount := 9
  constants := [.long 1, .fieldRef 4 5, .classRef 6, .nameAndType 7 8, .utf8 [0x4f], .utf8 [0x78], .utf8 [0x49]]
  flags := 0x0020
  thisClass := 4
  superClass := 0
  interfaces := []
  fields := []
  methods := []
  attributes := []

/-- The owner and the pair of the field resolve, past the second slot of the `long`. -/
theorem parse_forwardImage : parse forwardImage.layout = .ok forwardImage.classFile ∧
    (∀ r ∈ (Constant.fieldRef 4 5).references, forwardImage.classFile.pool.Resolves r.1 r.2) ∧
    ∃ bytes, forwardImage.classFile.pool.Holds 6 (.utf8 bytes) ∧
      ((∃ e, forwardImage.classFile.pool.text 6 = .error e) ↔ ¬ Canonical bytes) := by
  have h : parse forwardImage.layout = .ok forwardImage.classFile := Outcome.toOption_eq_some.mp (by decide +kernel)
  obtain ⟨hr, hc, -⟩ := parse_references_resolve h
  exact ⟨h, hr _ (by decide +kernel), hc 6 (by decide +kernel)⟩

end ClassFile
end JvmAccessors
