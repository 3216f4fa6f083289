import JvmAccessors.Access.Signature
import JvmAccessors.Proofs.Descriptor.Exact

/-!
# The signature that an accessor must have

A class asks of an accessor one signature. It can be told exactly if the type of the field is a field descriptor
(`FieldAccess.exists_signature_iff`), and its text has that descriptor in it as it stands, once or twice, beside the
name of the class with `/` between its parts (`FieldAccess.text_signature`). Its types are well formed unless an instance
is taken and the name of the class cannot stand in a descriptor (`FieldAccess.wellFormed_signature_iff`).

Main statements: what the signature is, and what it does not depend on (`FieldAccess.signature_spelled`); and comparing
texts is comparing types, for just those names that can stand in a descriptor (`FieldAccess.forall_fits_iff`), so that a
declared descriptor fits an access exactly if it is read as the signature (`FieldAccess.fits_iff_parse`).
-/

namespace JvmAccessors

/-! ## The type of the class -/

namespace ClassName

theorem separator_eq_semicolon_iff {c : Char} : separator c = ';' ↔ c = ';' := by
  unfold separator
  split
  · rename_i h
    subst h
    decide
  · exact Iff.rfl

theorem internal_eq_empty_iff {name : String} : internal name = "" ↔ name = "" := by
  rw [← String.toList_eq_nil_iff, toList_internal, List.map_eq_nil_iff, String.toList_eq_nil_iff]

theorem semicolon_mem_internal_iff {name : String} : ';' ∈ (internal name).toList ↔ ';' ∈ name.toList := by
  simp only [toList_internal, List.mem_map, separator_eq_semicolon_iff, exists_eq_right]

end ClassName

/-- The type of a class is well formed exactly if its name is, with `.` or with `/` between its parts. -/
theorem FieldType.wellFormed_ofClassName_iff {name : String} :
    (FieldType.ofClassName name).WellFormed ↔ name ≠ "" ∧ ';' ∉ name.toList :=
  and_congr (not_congr ClassName.internal_eq_empty_iff) (not_congr ClassName.semicolon_mem_internal_iff)

namespace FieldAccess

variable {enclosing declared : String} {a : FieldAccess} {t : MethodType}

/-! ## What the signature is -/

/-- The result is the type of the field; the parameters are the instance, unless the field is static, and the value, if
one is written. -/
theorem signature_eq_ok_iff : a.signature enclosing = .ok t ↔ FieldType.parse a.field.type = .ok t.result ∧
    t.parameters = (if a.field.isStatic then [] else [FieldType.ofClassName enclosing]) ++
      if a.direction = .write then [t.result] else [] := by
  unfold signature
  cases FieldType.parse a.field.type with
  | error e => simp
  | ok type =>
    simp only [Except.ok.injEq]
    constructor
    · rintro rfl
      exact ⟨rfl, rfl⟩
    · rintro ⟨rfl, hp⟩
      rw [← hp]

theorem signature_eq_error_iff {e : DescriptorError} :
    a.signature enclosing = .error e ↔ FieldType.parse a.field.type = .error e := by
  unfold signature
  cases FieldType.parse a.field.type <;> simp

/-- The signature can be told exactly if the type of the field is a field descriptor. -/
theorem exists_signature_iff : (∃ t, a.signature enclosing = .ok t) ↔ FieldDescriptor a.field.type.toList := by
  rw [← FieldType.exists_parse_iff]
  unfold signature
  cases FieldType.parse a.field.type <;> simp

/-- The text of the signature has the name of the class, internal, and the type of the field in it as they stand. -/
theorem text_signature (h : a.signature enclosing = .ok t) : t.text =
    "(" ++ (if a.field.isStatic then "" else "L" ++ enclosing.map (fun c => if c = '.' then '/' else c) ++ ";") ++
      (if a.direction = .write then a.field.type else "") ++ ")" ++ a.field.type := by
  obtain ⟨hr, hp⟩ := signature_eq_ok_iff.mp h
  obtain ⟨-, htype⟩ := FieldType.parse_eq_ok_iff.mp hr
  have hc : ((FieldType.ofClassName enclosing).chars : List Char) =
      'L' :: enclosing.toList.map (fun c => if c = '.' then '/' else c) ++ [';'] := by
    rw [FieldType.ofClassName, FieldType.chars, ClassName.toList_internal]
    rfl
  -- the texts are compared character by character, once for each of the four kinds of accessors
  apply String.toList_injective
  rw [MethodType.toList_text, MethodType.chars, hp, ← htype]
  cases a.field.isStatic <;> cases a.direction <;> simp [hc, FieldType.toList_text]

/-- **The signature of an accessor**, character for character. It can be told exactly if the type of the field is a
field descriptor, which it then has in it as it stands. It does not depend on the owner and the name of the field, nor
on which of its forms the name of the class has. -/
theorem signature_spelled (enclosing : String) (a : FieldAccess) :
    ((∃ t, a.signature enclosing = .ok t) ↔ FieldDescriptor a.field.type.toList) ∧
    (∀ t, a.signature enclosing = .ok t → t.text =
      "(" ++ (if a.field.isStatic then "" else "L" ++ enclosing.map (fun c => if c = '.' then '/' else c) ++ ";") ++
        (if a.direction = .write then a.field.type else "") ++ ")" ++ a.field.type) ∧
    (∀ owner name, signature enclosing { a with field := { a.field with owner := owner, name := name } } =
      a.signature enclosing) ∧
    a.signature (ClassName.internal enclosing) = a.signature enclosing := by
  refine ⟨exists_signature_iff, fun t => text_signature, fun _ _ => rfl, ?_⟩
  rw [signature, FieldType.ofClassName, ClassName.internal_internal]
  rfl

/-- The write of an array field `grid` of a class, declared in another one. -/
def writeOfGrid : FieldAccess := ⟨⟨"Base", "grid", "[[J", false⟩, .write⟩

/-- The instance is one of the class that declares the accessor, not of the owner of the field. -/
theorem signature_writeOfGrid : ∃ t, writeOfGrid.signature "com.example.Outer" = .ok t ∧
    t.text = "(Lcom/example/Outer;[[J)[[J" ∧
    writeOfGrid.signature (ClassName.internal "com.example.Outer") = .ok t := by
  obtain ⟨hex, htext, -, hinternal⟩ := signature_spelled "com.example.Outer" writeOfGrid
  obtain ⟨t, ht⟩ := hex.mpr (.array (.array (.letter (by decide))))
  exact ⟨t, ht, (htext t ht).trans (by decide +kernel), hinternal.trans ht⟩

/-! ## Which descriptors fit -/

/-- The types of the signature are well formed exactly if no instance is taken, or the name of its class can stand in a
descriptor. -/
theorem wellFormed_signature_iff (h : a.signature enclosing = .ok t) :
    t.WellFormed ↔ a.field.isStatic = true ∨ enclosing ≠ "" ∧ ';' ∉ enclosing.toList := by
  obtain ⟨hr, hp⟩ := signature_eq_ok_iff.mp h
  have hw : t.result.WellFormed := (FieldType.parse_eq_ok_iff.mp hr).1
  have hv : ∀ p ∈ (if a.direction = .write then [t.result] else []), p.WellFormed := by
    intro p hp
    split at hp
    · rwa [List.mem_singleton.mp hp]
    · cases hp
  rw [MethodType.WellFormed, and_iff_left hw, hp, List.forall_mem_append, and_iff_left hv]
  cases a.field.isStatic with
  | true => simp
  | false => simp [FieldType.wellFormed_ofClassName_iff]

theorem fits_of_signature (h : a.signature enclosing = .ok t) (declared : String) :
    a.fits enclosing declared = .ok (decide (t.text = declared)) := by
  rw [fits, h]
  rfl

/-- A declared descriptor fits exactly if it is the text of the signature. -/
theorem fits_eq_true_iff (h : a.signature enclosing = .ok t) :
    a.fits enclosing declared = .ok true ↔ t.text = declared := by
  rw [fits_of_signature h, Except.ok.injEq, decide_eq_true_iff]

theorem fits_eq_false_iff (h : a.signature enclosing = .ok t) :
    a.fits enclosing declared = .ok false ↔ t.text ≠ declared := by
  rw [fits_of_signature h, Except.ok.injEq, decide_eq_false_iff_not]

theorem fits_eq_error_iff {e : DescriptorError} :
    a.fits enclosing declared = .error e ↔ FieldType.parse a.field.type = .error e := by
  rw [fits, Outcome.map_eq_error, signature_eq_error_iff]

/-- **Comparing texts is comparing types for just those classes whose names can stand in a descriptor**, unless no
instance is taken. -/
theorem forall_fits_iff (h : a.signature enclosing = .ok t) :
    (∀ declared, a.fits enclosing declared = .ok true ↔ MethodType.parse declared = .ok t) ↔
      a.field.isStatic = true ∨ enclosing ≠ "" ∧ ';' ∉ enclosing.toList := by
  simp only [← wellFormed_signature_iff h, fits_eq_true_iff h, MethodType.parse_eq_ok_iff]
  constructor
  · intro hall
    exact ((hall t.text).mp rfl).1
  · intro hw declared
    exact (and_iff_right hw).symm

/-- **A declared descriptor fits an access exactly if it is read as the signature of its accessor**, in a class whose
name can stand in a descriptor. Every other one is turned down: what is no descriptor, and what is one of other
parameters or of another result. -/
theorem fits_iff_parse {type : FieldType} (hname : enclosing ≠ "") (hsemicolon : ';' ∉ enclosing.toList)
    (htype : FieldType.parse a.field.type = .ok type) : ∃ t, a.signature enclosing = .ok t ∧
      (∀ declared, a.fits enclosing declared = .ok true ↔ MethodType.parse declared = .ok t) ∧
      (∀ declared, ¬ MethodDescriptor declared.toList → a.fits enclosing declared = .ok false) ∧
      ∀ declared u, MethodType.parse declared = .ok u → u.parameters ≠ t.parameters ∨ u.result ≠ t.result →
        a.fits enclosing declared = .ok false := by
  obtain ⟨t, ht⟩ := exists_signature_iff.mpr (FieldType.exists_parse_iff.mp ⟨type, htype⟩)
  have hfits := (forall_fits_iff ht).mpr (.inr ⟨hname, hsemicolon⟩)
  have hrefused {declared : String} (h : MethodType.parse declared ≠ .ok t) :
      a.fits enclosing declared = .ok false := by
    rw [fits_eq_false_iff ht, Ne, ← fits_eq_true_iff ht, hfits]
    exact h
  refine ⟨t, ht, hfits, fun declared hd => hrefused fun h => hd ?_, fun declared u hu hne => hrefused fun h => ?_⟩
  · exact MethodType.exists_parse_iff.mp ⟨t, h⟩
  · cases hu.symm.trans h
    simp at hne

/-- The type of the field `grid`. -/
def gridType : FieldType := .array (.array (.primitive .long))

/-- The type of the class that declares the accessor. -/
def outerType : FieldType := .object "com/example/Outer"

/-- The descriptor fits that has the instance in front of the value; the other way round it does not. -/
theorem fits_writeOfGrid : writeOfGrid.fits "com.example.Outer" "(Lcom/example/Outer;[[J)[[J" = .ok true ∧
    writeOfGrid.fits "com.example.Outer" "([[JLcom/example/Outer;)[[J" = .ok false := by
  have htype : FieldType.parse "[[J" = .ok gridType := FieldType.parse_eq_ok_iff.mpr ⟨by decide, by decide⟩
  have hs : writeOfGrid.signature "com.example.Outer" = .ok ⟨[outerType, gridType], gridType⟩ :=
    signature_eq_ok_iff.mpr ⟨htype, by decide⟩
  have hright : MethodType.parse "(Lcom/example/Outer;[[J)[[J" = .ok ⟨[outerType, gridType], gridType⟩ :=
    MethodType.parse_eq_ok_iff.mpr ⟨by decide, by decide⟩
  have hswapped : MethodType.parse "([[JLcom/example/Outer;)[[J" = .ok ⟨[gridType, outerType], gridType⟩ :=
    MethodType.parse_eq_ok_iff.mpr ⟨by decide, by decide⟩
  obtain ⟨t, ht, hfits, -, hother⟩ := @fits_iff_parse "com.example.Outer" writeOfGrid _ (by decide) (by decide) htype
  cases ht.symm.trans hs
  exact ⟨(hfits _).mpr hright, hother _ _ hswapped (.inl (by decide))⟩

end FieldAccess
end JvmAccessors
