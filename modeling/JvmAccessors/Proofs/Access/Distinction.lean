import JvmAccessors.Proofs.Access.Signature

/-!
# What a signature tells apart

The signature of an accessor tells the type of the field and how many parameters there are, and so nearly everything
about the access: what was read or written is known from it, but for the owner and the name of the field. One case is
left. An accessor that reads a field of an instance has one parameter, the instance, and one that writes a static field
has one too, the value; the two are the same if the type of the field is that of the class.

Main statement: there is no other case, so that otherwise no declared descriptor fits two accesses
(`FieldAccess.text_signature_eq_iff`).
-/

namespace JvmAccessors
namespace FieldAccess

variable {enclosing : String} {a b : FieldAccess} {t u : MethodType}

/-- Two accesses do the same to fields that are both static or both not. -/
def SameKind (a b : FieldAccess) : Prop := a.field.isStatic = b.field.isStatic ∧ a.direction = b.direction

/-- One access reads a field of an instance, and another one writes a static field. -/
def Crossed (a b : FieldAccess) : Prop :=
  (a.field.isStatic = false ∧ a.direction = .read) ∧ b.field.isStatic = true ∧ b.direction = .write

/-- **Accesses that look the same in a class**: their fields are of one type, and they are of one kind, or one reads from
an instance and the other writes a static field, and the type is that of the class. -/
def Alike (enclosing : String) (a b : FieldAccess) : Prop :=
  a.field.type = b.field.type ∧ (SameKind a b ∨
    (Crossed a b ∨ Crossed b a) ∧ FieldType.parse a.field.type = .ok (FieldType.ofClassName enclosing))

/-- Parameters tell the kind of an access, unless instance and value are of one type. -/
theorem parameters_eq_iff {receiver value : FieldType} :
    ((if a.field.isStatic then [] else [receiver]) ++ if a.direction = .write then [value] else []) =
      ((if b.field.isStatic then [] else [receiver]) ++ if b.direction = .write then [value] else []) ↔
    SameKind a b ∨ (Crossed a b ∨ Crossed b a) ∧ value = receiver := by
  have hcomm : receiver = value ↔ value = receiver := eq_comm
  unfold SameKind Crossed
  -- of two kinds that differ, only the crossed ones have one parameter each
  cases a.field.isStatic <;> cases a.direction <;> cases b.field.isStatic <;> cases b.direction <;> simp [hcomm]

/-- Signatures have one result exactly if the fields have one type. -/
theorem result_eq_iff (ha : a.signature enclosing = .ok t) (hb : b.signature enclosing = .ok u) :
    t.result = u.result ↔ a.field.type = b.field.type := by
  have hr := (signature_eq_ok_iff.mp ha).1
  have hr' := (signature_eq_ok_iff.mp hb).1
  constructor
  · intro h
    rw [← (FieldType.parse_eq_ok_iff.mp hr).2, ← (FieldType.parse_eq_ok_iff.mp hr').2, h]
  · intro h
    rw [h] at hr
    exact Except.ok.inj (hr.symm.trans hr')

/-- Two accesses ask for one type exactly if they look the same. -/
theorem signature_eq_iff_alike (ha : a.signature enclosing = .ok t) (hb : b.signature enclosing = .ok u) :
    t = u ↔ Alike enclosing a b := by
  obtain ⟨hr, hp⟩ := signature_eq_ok_iff.mp ha
  obtain ⟨-, hp'⟩ := signature_eq_ok_iff.mp hb
  have htype : FieldType.parse a.field.type = .ok (FieldType.ofClassName enclosing) ↔
      t.result = FieldType.ofClassName enclosing := by rw [hr, Except.ok.injEq]
  have hsplit : t = u ↔ t.result = u.result ∧ t.parameters = u.parameters := by
    cases t
    cases u
    rw [MethodType.mk.injEq, and_comm]
  rw [hsplit, Alike, htype, ← result_eq_iff ha hb, and_congr_right_iff]
  intro hresult
  rw [hp, hp', ← hresult, parameters_eq_iff]

/-- **What the text of a signature reveals.** In a class whose name can stand in a descriptor, two accesses to fields of
known types ask for the same text exactly if they look the same there. Then the same descriptors fit both; otherwise
none fits both. -/
theorem text_signature_eq_iff {type type' : FieldType} (hname : enclosing ≠ "") (hsemicolon : ';' ∉ enclosing.toList)
    (ha : FieldType.parse a.field.type = .ok type) (hb : FieldType.parse b.field.type = .ok type') :
    ∃ t u, a.signature enclosing = .ok t ∧ b.signature enclosing = .ok u ∧
      (t.text = u.text ↔ Alike enclosing a b) ∧
      (Alike enclosing a b → ∀ declared, a.fits enclosing declared = b.fits enclosing declared) ∧
      (¬ Alike enclosing a b → ∀ declared,
        ¬ (a.fits enclosing declared = .ok true ∧ b.fits enclosing declared = .ok true)) := by
  obtain ⟨t, ht⟩ := exists_signature_iff.mpr (FieldType.exists_parse_iff.mp ⟨type, ha⟩)
  obtain ⟨u, hu⟩ := exists_signature_iff.mpr (FieldType.exists_parse_iff.mp ⟨type', hb⟩)
  have hwt : t.WellFormed := (wellFormed_signature_iff ht).mpr (.inr ⟨hname, hsemicolon⟩)
  have hwu : u.WellFormed := (wellFormed_signature_iff hu).mpr (.inr ⟨hname, hsemicolon⟩)
  have htext : t.text = u.text ↔ Alike enclosing a b := by
    rw [← signature_eq_iff_alike ht hu]
    exact ⟨MethodType.text_injective hwt hwu, fun h => h ▸ rfl⟩
  refine ⟨t, u, ht, hu, htext, fun halike declared => ?_, fun hnot declared hboth => ?_⟩
  · rw [fits_of_signature ht, fits_of_signature hu, htext.mpr halike]
  · obtain ⟨hfits, hfits'⟩ := hboth
    rw [fits_eq_true_iff ht] at hfits
    rw [fits_eq_true_iff hu] at hfits'
    exact hnot (htext.mp (hfits.trans hfits'.symm))

/-- The read of a field of a class that is of the type of the class. -/
def readOfNext : FieldAccess := ⟨⟨"list/Node", "next", "Llist/Node;", false⟩, .read⟩

/-- The write of a static field of that type. -/
def writeOfFirst : FieldAccess := ⟨⟨"list/Node", "first", "Llist/Node;", true⟩, .write⟩

/-- One descriptor fits the two in that class, but not in another one. -/
theorem text_signature_eq_node :
    readOfNext.fits "list.Node" "(Llist/Node;)Llist/Node;" = writeOfFirst.fits "list.Node" "(Llist/Node;)Llist/Node;" ∧
    ∀ declared, ¬ (readOfNext.fits "list.Owner" declared = .ok true ∧
      writeOfFirst.fits "list.Owner" declared = .ok true) := by
  have htype : FieldType.parse "Llist/Node;" = .ok (FieldType.ofClassName "list.Node") :=
    FieldType.parse_eq_ok_iff.mpr ⟨by decide, by decide⟩
  have halike : Alike "list.Node" readOfNext writeOfFirst := ⟨rfl, .inr ⟨.inl ⟨⟨rfl, rfl⟩, rfl, rfl⟩, htype⟩⟩
  have hnot : ¬ Alike "list.Owner" readOfNext writeOfFirst := by
    intro h
    obtain ⟨-, hsame | ⟨-, hother⟩⟩ := h
    · cases hsame.1
    · cases htype.symm.trans hother
  obtain ⟨_, _, _, _, _, hfits, _⟩ := @text_signature_eq_iff "list.Node" readOfNext writeOfFirst _ _ (by decide)
    (by decide) htype htype
  obtain ⟨_, _, _, _, _, _, hnone⟩ := @text_signature_eq_iff "list.Owner" readOfNext writeOfFirst _ _ (by decide)
    (by decide) htype htype
  exact ⟨hfits halike _, hnone hnot⟩

end FieldAccess
end JvmAccessors
