import JvmAccessors.Descriptor.MethodType
import JvmAccessors.Proofs.Outcome

/-!
# Descriptors are read as they are spelled

A class name can stand in a descriptor if it is not empty and has no `;`; a type is well formed if all of its class
names are such names. Reading takes off the front just the characters that spell a well-formed type, whatever follows
them (`FieldType.read_eq_ok_iff`), and the parameters of a method up to the `)` that ends them
(`MethodType.readParameters_eq_ok_iff`). So a text is read as a type exactly if the type is well formed and this is its
text (`FieldType.parse_eq_ok_iff`, `MethodType.parse_eq_ok_iff`).

`FieldDescriptor` and `MethodDescriptor` are the grammar of descriptors. Main statement: reading and spelling undo each
other, and reading accepts exactly the grammar (`MethodType.parse_exact`).
-/

namespace JvmAccessors

/-! ## Primitive types -/

theorem Primitive.ofLetter?_eq_some_iff {c : Char} {p : Primitive} : ofLetter? c = some p ↔ c = p.letter := by
  constructor
  · intro h
    unfold ofLetter? at h
    split at h <;> cases h <;> rfl
  · rintro rfl
    cases p <;> rfl

namespace FieldType

/-! ## Field types -/

/-- The class names of a type can stand between `L` and `;`: none is empty, and none has a `;`. -/
def WellFormed : FieldType → Prop
  | .primitive _ => True
  | .object className => className ≠ "" ∧ ';' ∉ className.toList
  | .array element => element.WellFormed

instance decidableWellFormed : (t : FieldType) → Decidable t.WellFormed
  | .primitive _ => .isTrue trivial
  | .object className => inferInstanceAs (Decidable (className ≠ "" ∧ ';' ∉ className.toList))
  | .array element => decidableWellFormed element

theorem toList_text (t : FieldType) : t.text.toList = t.chars := String.toList_ofList

theorem ne_semicolon_of_not_mem {name : List Char} (h : ';' ∉ name) : ∀ c ∈ name, (c != ';') = true := by
  intro c hc
  have hne : c ≠ ';' := by
    rintro rfl
    exact h hc
  simpa using hne

/-- A name is taken off the front of a list of characters if it stands there before a `;`. -/
theorem readName_eq_ok_iff {cs rest : List Char} {name : String} : readName cs = .ok (name, rest) ↔
    (name ≠ "" ∧ ';' ∉ name.toList) ∧ cs = name.toList ++ ';' :: rest := by
  constructor
  · intro h
    have hcs : cs.takeWhile (· != ';') ++ cs.dropWhile (· != ';') = cs := List.takeWhile_append_dropWhile
    unfold readName at h
    split at h
    · cases h
    · rename_i c after hd
      split at h
      · cases h
      · rename_i hne
        cases h
        -- the character that ends the name is the first one that is a `;`
        have hc : c = ';' := by
          have hhead := List.head?_dropWhile_not (· != ';') cs
          rw [hd] at hhead
          simpa using hhead
        rw [String.toList_ofList]
        refine ⟨⟨fun he => hne (String.ofList_eq_empty_iff.mp he), fun hm => ?_⟩, ?_⟩
        · have hall := List.all_takeWhile (p := (· != ';')) (l := cs)
          have := List.all_eq_true.mp hall _ hm
          simp at this
        · subst hc
          rw [← hd, hcs]
  · rintro ⟨⟨hne, hs⟩, rfl⟩
    have hall := ne_semicolon_of_not_mem hs
    have htake : (name.toList ++ ';' :: rest).takeWhile (· != ';') = name.toList := by
      rw [List.takeWhile_append_of_pos hall]
      simp
    have hdrop : (name.toList ++ ';' :: rest).dropWhile (· != ';') = ';' :: rest := by
      rw [List.dropWhile_append_of_pos hall]
      simp
    have hnil : name.toList ≠ [] := fun he => hne (String.toList_eq_nil_iff.mp he)
    unfold readName
    rw [hdrop, htake]
    simp only [if_neg hnil, String.ofList_toList]

theorem read_letter (p : Primitive) (rest : List Char) : read (p.letter :: rest) = .ok (.primitive p, rest) := by
  cases p <;> rfl

/-- A type that was taken off the front is well formed, and its characters stood there. -/
theorem wellFormed_of_read {cs rest : List Char} {t : FieldType} (h : read cs = .ok (t, rest)) :
    t.WellFormed ∧ cs = t.chars ++ rest := by
  fun_induction read cs generalizing t rest with
  | case1 => cases h
  | case2 cs ih =>
    obtain ⟨⟨element, rest'⟩, hr, he⟩ := Outcome.map_eq_ok.mp h
    cases he
    obtain ⟨hw, rfl⟩ := ih hr
    exact ⟨hw, rfl⟩
  | case3 cs =>
    obtain ⟨⟨name, rest'⟩, hr, he⟩ := Outcome.map_eq_ok.mp h
    cases he
    obtain ⟨hw, rfl⟩ := readName_eq_ok_iff.mp hr
    exact ⟨hw, by simp [chars]⟩
  | case4 c cs _ _ p hp =>
    cases h
    exact ⟨trivial, by rw [Primitive.ofLetter?_eq_some_iff.mp hp]; rfl⟩
  | case5 => cases h

/-- A well-formed type is taken off the front of a list of characters that starts with its own. -/
theorem read_chars {t : FieldType} (h : t.WellFormed) (rest : List Char) : read (t.chars ++ rest) = .ok (t, rest) := by
  induction t with
  | primitive p => exact read_letter p rest
  | object name =>
    have hr : readName (name.toList ++ ';' :: rest) = .ok (name, rest) := readName_eq_ok_iff.mpr ⟨h, rfl⟩
    have hc : (object name).chars ++ rest = 'L' :: (name.toList ++ ';' :: rest) := by simp [chars]
    rw [hc, read, hr]
    rfl
  | array element ih =>
    rw [chars, List.cons_append, read, ih h]
    rfl

/-- **Reading a type**: one is taken off the front exactly if it is well formed and its characters stand there. -/
theorem read_eq_ok_iff {cs rest : List Char} {t : FieldType} :
    read cs = .ok (t, rest) ↔ t.WellFormed ∧ cs = t.chars ++ rest := by
  constructor
  · exact wellFormed_of_read
  · rintro ⟨hw, rfl⟩
    exact read_chars hw rest

/-- A text is read as a type exactly if the type is well formed and this is its text. -/
theorem parse_eq_ok_iff {s : String} {t : FieldType} : parse s = .ok t ↔ t.WellFormed ∧ t.text = s := by
  have hs : t.text = s ↔ s.toList = t.chars ++ [] := by
    rw [List.append_nil, ← toList_text]
    exact ⟨fun h => h ▸ rfl, fun h => (String.toList_injective h).symm⟩
  rw [hs, ← read_eq_ok_iff, parse]
  cases hr : read s.toList with
  | error e => simp
  | ok r =>
    obtain ⟨u, rest⟩ := r
    cases rest <;> simp

/-- What stands after a type is too much. -/
theorem parse_append {s x : String} {t : FieldType} (h : parse s = .ok t) (hx : x ≠ "") :
    parse (s ++ x) = .error (.trailingField (s ++ x)) := by
  obtain ⟨hw, rfl⟩ := parse_eq_ok_iff.mp h
  have hr : read (t.text ++ x).toList = .ok (t, x.toList) := by
    rw [String.toList_append, toList_text]
    exact read_chars hw x.toList
  cases hl : x.toList with
  | nil => exact absurd (String.toList_eq_nil_iff.mp hl) hx
  | cons c cs =>
    rw [hl] at hr
    simp only [parse, hr]

theorem text_injective {t t' : FieldType} (h : t.WellFormed) (h' : t'.WellFormed) (he : t.text = t'.text) : t = t' := by
  have hp : parse t.text = .ok t := parse_eq_ok_iff.mpr ⟨h, rfl⟩
  have hp' : parse t.text = .ok t' := parse_eq_ok_iff.mpr ⟨h', he.symm⟩
  exact Except.ok.inj (hp.symm.trans hp')

/-- No type is spelled with a `)` in front, so that it cannot be taken for the end of a list of parameters. -/
theorem exists_cons_chars (t : FieldType) : ∃ c cs, t.chars = c :: cs ∧ c ≠ ')' := by
  cases t with
  | primitive p => exact ⟨p.letter, [], rfl, by cases p <;> decide⟩
  | object name => exact ⟨'L', name.toList ++ [';'], rfl, by decide⟩
  | array element => exact ⟨'[', element.chars, rfl, by decide⟩

end FieldType

namespace MethodType

open FieldType

/-! ## Method types -/

/-- The types of the parameters and of the result are well formed. -/
def WellFormed (t : MethodType) : Prop := (∀ p ∈ t.parameters, p.WellFormed) ∧ t.result.WellFormed

instance (t : MethodType) : Decidable t.WellFormed :=
  inferInstanceAs (Decidable ((∀ p ∈ t.parameters, p.WellFormed) ∧ t.result.WellFormed))

theorem toList_text (t : MethodType) : t.text.toList = t.chars := String.toList_ofList

theorem readParameters_close (rest : List Char) : readParameters (')' :: rest) = .ok ([], rest) := by
  rw [readParameters]

theorem readParameters_cons {c : Char} (hc : c ≠ ')') (cs : List Char) : readParameters (c :: cs) =
    (FieldType.read (c :: cs)).bind fun (t, rest) => (readParameters rest).map fun (ts, rest) => (t :: ts, rest) := by
  rw [readParameters.eq_def]
  split
  · rename_i h
    cases h
  · rename_i h
    cases h
    exact absurd rfl hc
  · rename_i h
    cases h
    split <;> rename_i hr <;> rw [hr] <;> rfl

/-- Parameters that were taken off the front are well formed, and stood there before a `)`. -/
theorem wellFormed_of_readParameters {cs rest : List Char} {ts : List FieldType}
    (h : readParameters cs = .ok (ts, rest)) :
    (∀ t ∈ ts, t.WellFormed) ∧ cs = ts.flatMap FieldType.chars ++ ')' :: rest := by
  induction cs using readParameters.induct generalizing ts rest with
  | case1 => simp [readParameters] at h
  | case2 cs =>
    rw [readParameters_close] at h
    cases h
    exact ⟨nofun, rfl⟩
  | case3 c cs hc e hr =>
    rw [readParameters_cons hc, hr] at h
    cases h
  | case4 c cs hc t cs' hr ih =>
    rw [readParameters_cons hc, hr] at h
    obtain ⟨⟨us, rest'⟩, hp, he⟩ := Outcome.map_eq_ok.mp h
    cases he
    obtain ⟨hw, hcs⟩ := FieldType.read_eq_ok_iff.mp hr
    obtain ⟨hws, rfl⟩ := ih hp
    refine ⟨List.forall_mem_cons.mpr ⟨hw, hws⟩, ?_⟩
    rw [hcs, List.flatMap_cons, List.append_assoc]

/-- Well-formed parameters are taken off the front of a list of characters that starts with theirs and a `)`. -/
theorem readParameters_flatMap {ts : List FieldType} (h : ∀ t ∈ ts, t.WellFormed) (rest : List Char) :
    readParameters (ts.flatMap FieldType.chars ++ ')' :: rest) = .ok (ts, rest) := by
  induction ts with
  | nil => exact readParameters_close rest
  | cons t ts ih =>
    obtain ⟨hw, hws⟩ := List.forall_mem_cons.mp h
    obtain ⟨c, cs, hc, hne⟩ := t.exists_cons_chars
    have hr := FieldType.read_chars hw (ts.flatMap FieldType.chars ++ ')' :: rest)
    rw [hc, List.cons_append] at hr
    rw [List.flatMap_cons, List.append_assoc, hc, List.cons_append, readParameters_cons hne, hr]
    show (readParameters _).map _ = _
    rw [ih hws]
    rfl

/-- **Reading parameters**: they are taken off the front, up to the `)` that ends them, exactly if each is well formed
and they stand there one after the other. -/
theorem readParameters_eq_ok_iff {cs rest : List Char} {ts : List FieldType} : readParameters cs = .ok (ts, rest) ↔
    (∀ t ∈ ts, t.WellFormed) ∧ cs = ts.flatMap FieldType.chars ++ ')' :: rest := by
  constructor
  · exact wellFormed_of_readParameters
  · rintro ⟨hw, rfl⟩
    exact readParameters_flatMap hw rest

theorem chars_append (t : MethodType) (rest : List Char) : t.chars ++ rest =
    '(' :: (t.parameters.flatMap FieldType.chars ++ ')' :: (t.result.chars ++ rest)) := by
  simp [chars]

/-- A text with a method type in front is read as that type if nothing stands after it. -/
theorem parse_of_wellFormed {s : String} {t : MethodType} (h : t.WellFormed) {rest : List Char}
    (hs : s.toList = t.chars ++ rest) : parse s = if rest = [] then .ok t else .error (.trailingMethod s) := by
  have hp := readParameters_flatMap h.1 (t.result.chars ++ rest)
  have hr := FieldType.read_chars h.2 rest
  rw [chars_append] at hs
  cases rest <;> simp only [parse, hs, hp, hr] <;> rfl

/-- A text that is read as a method type is a `(`, its parameters, a `)` and its result. -/
theorem reads_of_parse {s : String} {t : MethodType} (h : parse s = .ok t) : ∃ cs rest, s.toList = '(' :: cs ∧
    readParameters cs = .ok (t.parameters, rest) ∧ FieldType.read rest = .ok (t.result, []) := by
  unfold parse at h
  split at h
  · rename_i cs hs
    split at h
    · cases h
    rename_i parameters rest hp
    split at h
    · cases h
    · rename_i result hr
      cases h
      exact ⟨cs, rest, hs, hp, hr⟩
    · cases h
  · cases h

/-- A text is read as a method type exactly if the types in it are well formed and this is its text. -/
theorem parse_eq_ok_iff {s : String} {t : MethodType} : parse s = .ok t ↔ t.WellFormed ∧ t.text = s := by
  constructor
  · intro h
    obtain ⟨cs, rest, hs, hp, hr⟩ := reads_of_parse h
    obtain ⟨hws, rfl⟩ := readParameters_eq_ok_iff.mp hp
    obtain ⟨hw, rfl⟩ := FieldType.read_eq_ok_iff.mp hr
    refine ⟨⟨hws, hw⟩, String.toList_injective ?_⟩
    rw [toList_text, hs, ← chars_append, List.append_nil]
  · rintro ⟨hw, rfl⟩
    rw [parse_of_wellFormed hw (by rw [List.append_nil, toList_text]), if_pos rfl]

/-- What stands after a method type is too much. -/
theorem parse_append {s x : String} {t : MethodType} (h : parse s = .ok t) (hx : x ≠ "") :
    parse (s ++ x) = .error (.trailingMethod (s ++ x)) := by
  obtain ⟨hw, rfl⟩ := parse_eq_ok_iff.mp h
  have hs : (t.text ++ x).toList = t.chars ++ x.toList := by rw [String.toList_append, toList_text]
  rw [parse_of_wellFormed hw hs, if_neg fun hl => hx (String.toList_eq_nil_iff.mp hl)]

theorem text_injective {t t' : MethodType} (h : t.WellFormed) (h' : t'.WellFormed) (he : t.text = t'.text) :
    t = t' := by
  have hp : parse t.text = .ok t := parse_eq_ok_iff.mpr ⟨h, rfl⟩
  have hp' : parse t.text = .ok t' := parse_eq_ok_iff.mpr ⟨h', he.symm⟩
  exact Except.ok.inj (hp.symm.trans hp')

end MethodType

/-! ## The grammar of descriptors -/

/-- A field descriptor: a letter, or `L`, a name and `;`, or `[` and a field descriptor. -/
inductive FieldDescriptor : List Char → Prop
  | letter {c : Char} : c ∈ ['B', 'C', 'D', 'F', 'I', 'J', 'S', 'Z', 'V'] → FieldDescriptor [c]
  | object {name : List Char} : name ≠ [] → ';' ∉ name → FieldDescriptor ('L' :: name ++ [';'])
  | array {element : List Char} : FieldDescriptor element → FieldDescriptor ('[' :: element)

/-- A method descriptor: field descriptors between `(` and `)`, and a field descriptor after them. -/
inductive MethodDescriptor : List Char → Prop
  | signature {parameters : List (List Char)} {result : List Char} : (∀ p ∈ parameters, FieldDescriptor p) →
      FieldDescriptor result → MethodDescriptor ('(' :: parameters.flatten ++ ')' :: result)

theorem Primitive.mem_letters_iff {c : Char} :
    c ∈ ['B', 'C', 'D', 'F', 'I', 'J', 'S', 'Z', 'V'] ↔ ∃ p : Primitive, p.letter = c := by
  constructor
  · intro h
    have hs : (ofLetter? c).isSome = true := by
      simp only [List.mem_cons, List.not_mem_nil, or_false] at h
      rcases h with rfl | rfl | rfl | rfl | rfl | rfl | rfl | rfl | rfl <;> rfl
    obtain ⟨p, hp⟩ := Option.isSome_iff_exists.mp hs
    exact ⟨p, (ofLetter?_eq_some_iff.mp hp).symm⟩
  · rintro ⟨p, rfl⟩
    cases p <;> decide

/-- Field descriptors are what well-formed types are spelled with. -/
theorem fieldDescriptor_iff {cs : List Char} : FieldDescriptor cs ↔ ∃ t : FieldType, t.WellFormed ∧ t.chars = cs := by
  constructor
  · intro h
    induction h with
    | letter hc =>
      obtain ⟨p, rfl⟩ := Primitive.mem_letters_iff.mp hc
      exact ⟨.primitive p, trivial, rfl⟩
    | @object name hne hs =>
      refine ⟨.object (String.ofList name), ⟨fun he => hne (String.ofList_eq_empty_iff.mp he), ?_⟩, ?_⟩
      · rwa [String.toList_ofList]
      · rw [FieldType.chars, String.toList_ofList]
    | array _ ih =>
      obtain ⟨element, hw, rfl⟩ := ih
      exact ⟨.array element, hw, rfl⟩
  · rintro ⟨t, hw, rfl⟩
    induction t with
    | primitive p => exact .letter (Primitive.mem_letters_iff.mpr ⟨p, rfl⟩)
    | object name => exact .object (fun he => hw.1 (String.toList_eq_nil_iff.mp he)) hw.2
    | array element ih => exact .array (ih hw)

/-- Reading accepts exactly the field descriptors. -/
theorem FieldType.exists_parse_iff {s : String} : (∃ t, FieldType.parse s = .ok t) ↔ FieldDescriptor s.toList := by
  simp only [FieldType.parse_eq_ok_iff, fieldDescriptor_iff, ← String.toList_inj, FieldType.toList_text]

/-- Rows of field descriptors are what rows of well-formed types are spelled with. -/
theorem forall_fieldDescriptor_iff {parameters : List (List Char)} : (∀ p ∈ parameters, FieldDescriptor p) ↔
    ∃ ts : List FieldType, (∀ t ∈ ts, t.WellFormed) ∧ ts.map FieldType.chars = parameters := by
  constructor
  · intro h
    induction parameters with
    | nil => exact ⟨[], nofun, rfl⟩
    | cons p parameters ih =>
      obtain ⟨hp, hps⟩ := List.forall_mem_cons.mp h
      obtain ⟨t, hw, rfl⟩ := fieldDescriptor_iff.mp hp
      obtain ⟨ts, hws, rfl⟩ := ih hps
      exact ⟨t :: ts, List.forall_mem_cons.mpr ⟨hw, hws⟩, rfl⟩
  · rintro ⟨ts, hw, rfl⟩ p hp
    obtain ⟨t, ht, rfl⟩ := List.mem_map.mp hp
    exact fieldDescriptor_iff.mpr ⟨t, hw t ht, rfl⟩

/-- Method descriptors are what method types of well-formed types are spelled with. -/
theorem methodDescriptor_iff {cs : List Char} : MethodDescriptor cs ↔ ∃ t : MethodType, t.WellFormed ∧ t.chars = cs := by
  constructor
  · rintro ⟨hp, hr⟩
    obtain ⟨ts, hws, rfl⟩ := forall_fieldDescriptor_iff.mp hp
    obtain ⟨result, hw, rfl⟩ := fieldDescriptor_iff.mp hr
    exact ⟨⟨ts, result⟩, ⟨hws, hw⟩, rfl⟩
  · rintro ⟨t, ⟨hws, hw⟩, rfl⟩
    exact .signature (forall_fieldDescriptor_iff.mpr ⟨t.parameters, hws, rfl⟩) (fieldDescriptor_iff.mpr ⟨_, hw, rfl⟩)

/-- Reading accepts exactly the method descriptors. -/
theorem MethodType.exists_parse_iff {s : String} : (∃ t, MethodType.parse s = .ok t) ↔ MethodDescriptor s.toList := by
  simp only [MethodType.parse_eq_ok_iff, methodDescriptor_iff, ← String.toList_inj, MethodType.toList_text]

/-- **Reading and spelling a descriptor undo each other.** A text is read as a type, of a field or of a method, exactly
if the type is well formed and this is its text. So reading accepts exactly the grammar of descriptors, refuses a
descriptor with anything after it, and no two well-formed types have the same text. -/
theorem MethodType.parse_exact :
    (∀ s (t : FieldType), FieldType.parse s = .ok t ↔ t.WellFormed ∧ t.text = s) ∧
    (∀ s (t : MethodType), MethodType.parse s = .ok t ↔ t.WellFormed ∧ t.text = s) ∧
    (∀ s, (∃ t, FieldType.parse s = .ok t) ↔ FieldDescriptor s.toList) ∧
    (∀ s, (∃ t, MethodType.parse s = .ok t) ↔ MethodDescriptor s.toList) ∧
    (∀ s x t, FieldType.parse s = .ok t → x ≠ "" → FieldType.parse (s ++ x) = .error (.trailingField (s ++ x))) ∧
    (∀ s x t, MethodType.parse s = .ok t → x ≠ "" → MethodType.parse (s ++ x) = .error (.trailingMethod (s ++ x))) ∧
    (∀ t t' : FieldType, t.WellFormed → t'.WellFormed → t.text = t'.text → t = t') ∧
    ∀ t t' : MethodType, t.WellFormed → t'.WellFormed → t.text = t'.text → t = t' := by
  refine ⟨fun _ _ => FieldType.parse_eq_ok_iff, fun _ _ => parse_eq_ok_iff, fun s => ?_, fun s => ?_,
    fun _ _ _ => FieldType.parse_append, fun _ _ _ => parse_append, fun _ _ => FieldType.text_injective,
    fun _ _ => text_injective⟩
  · simp only [FieldType.parse_eq_ok_iff, fieldDescriptor_iff, ← String.toList_inj, FieldType.toList_text]
  · simp only [parse_eq_ok_iff, methodDescriptor_iff, ← String.toList_inj, toList_text]

/-- A class name may look like the end of the parameters, and what follows it is still read as it is spelled. -/
theorem MethodType.parse_bracketsInName :
    parse "(La)I[;[J)LV;" = .ok ⟨[.object "a)I[", .array (.primitive .long)], .object "V"⟩ ∧
      parse "(La)I[;[J)LV;I" = .error (.trailingMethod "(La)I[;[J)LV;I") := by
  have h : parse "(La)I[;[J)LV;" = .ok ⟨[.object "a)I[", .array (.primitive .long)], .object "V"⟩ :=
    (parse_exact.2.1 _ _).mpr ⟨by decide, by decide⟩
  exact ⟨h, parse_exact.2.2.2.2.2.1 _ "I" _ h (by decide)⟩

end JvmAccessors
