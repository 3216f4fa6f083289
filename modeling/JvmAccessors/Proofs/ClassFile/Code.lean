import JvmAccessors.Proofs.ClassFile.Entries
import JvmAccessors.Proofs.Outcome

/-!
# The content of a `Code` attribute

Code is read exactly as it is written (`Code.exact_read`), if its bytecode and its tables have lengths that can be
written (`Code.Fits`). Unlike a class file, the content of a `Code` attribute is not read to its end: main statement:
some code is decoded from just the byte strings that its layout is in front of, so that nothing after the layout
matters, and a layout without its end is refused (`Code.decode_iff_layout`).
-/

namespace JvmAccessors

open Reader

theorem Handler.exact_read : Exact Handler.read Handler.layout fun _ => True := by
  intro b h rest
  simp only [Handler.read, bind_eq_ok, pure_eq_ok, u16_eq_ok]
  constructor
  · rintro ⟨start, _, rfl, stop, _, rfl, target, _, rfl, catchType, _, rfl, rfl, rfl⟩
    exact ⟨trivial, by simp only [Handler.layout, List.append_assoc]⟩
  · intro hb
    rw [hb.2]
    simp only [Handler.layout, List.append_assoc]
    exact ⟨h.start, _, rfl, h.stop, _, rfl, h.target, _, rfl, h.catchType, rest, rfl, rfl, rfl⟩

namespace Code

/-- **Code that can be written**: its bytecode has a length of four bytes, and its handlers and its attributes can be
counted in two bytes each. -/
structure Fits (k : Code) : Prop where
  bytecode : k.bytecode.length < Bytes.capacity 4
  handlers : k.handlers.length < Bytes.capacity 2
  attributes : Countable Attribute.Fits k.attributes

theorem layout_eq (k : Code) : k.layout = Layout.u16 k.maxStack ++ (Layout.u16 k.maxLocals ++
    (Bytes.ofNat 4 k.bytecode.length ++ (k.bytecode ++ (Layout.table Handler.layout k.handlers ++
      Layout.table Attribute.layout k.attributes)))) := by
  simp only [layout, List.append_assoc]

/-- Code is read exactly as it is written, whatever stands after it. -/
theorem exact_read : Exact Code.read layout Fits := by
  intro b k rest
  rw [layout_eq]
  constructor
  · intro h
    obtain ⟨maxStack, _, rfl, h1⟩ := u16_bind_eq_ok.mp h
    obtain ⟨maxLocals, _, rfl, h2⟩ := u16_bind_eq_ok.mp h1
    obtain ⟨bytecode, _, hb, rfl, h3⟩ := isWord_u32.block_bind_eq_ok.mp h2
    obtain ⟨handlers, _, hh, rfl, h4⟩ := (table_bind_eq_ok Handler.exact_read).mp h3
    obtain ⟨attributes, _, ht, hp⟩ := bind_eq_ok.mp h4
    obtain ⟨ha, rfl⟩ := (Attribute.exact_readTable _ _ _).mp ht
    obtain ⟨rfl, rfl⟩ := pure_eq_ok.mp hp
    exact ⟨⟨hb, hh.1, ha⟩, by simp only [List.append_assoc]⟩
  · intro h
    obtain ⟨hf, rfl⟩ := h
    simp only [List.append_assoc]
    apply u16_bind_eq_ok.mpr
    refine ⟨k.maxStack, _, rfl, ?_⟩
    apply u16_bind_eq_ok.mpr
    refine ⟨k.maxLocals, _, rfl, ?_⟩
    apply isWord_u32.block_bind_eq_ok.mpr
    refine ⟨k.bytecode, _, hf.bytecode, rfl, ?_⟩
    apply (table_bind_eq_ok Handler.exact_read).mpr
    refine ⟨k.handlers, _, ⟨hf.handlers, fun _ _ => trivial⟩, rfl, ?_⟩
    apply bind_eq_ok.mpr
    exact ⟨k.attributes, rest, (Attribute.exact_readTable _ _ _).mpr ⟨hf.attributes, rfl⟩, rfl⟩

variable {d : Bytes} {k : Code}

/-- Code is decoded from a byte string exactly if it can be written and its layout stands in front. -/
theorem decode_eq_ok_iff : Code.decode d = .ok k ↔ k.Fits ∧ ∃ rest, d = k.layout ++ rest := by
  rw [Code.decode, Outcome.map_eq_ok]
  constructor
  · intro h
    obtain ⟨⟨_, rest⟩, hr, rfl⟩ := h
    obtain ⟨hf, hd⟩ := (exact_read _ _ _).mp hr
    exact ⟨hf, rest, hd⟩
  · intro h
    obtain ⟨hf, rest, hd⟩ := h
    exact ⟨(k, rest), (exact_read _ _ _).mpr ⟨hf, hd⟩, rfl⟩

/-- What follows the content of a `Code` attribute changes nothing. -/
theorem decode_before_more (h : Code.decode d = .ok k) (more : Bytes) : Code.decode (d ++ more) = .ok k := by
  obtain ⟨hf, rest, rfl⟩ := decode_eq_ok_iff.mp h
  exact decode_eq_ok_iff.mpr ⟨hf, rest ++ more, List.append_assoc _ _ _⟩

/-- No layout starts a longer one. -/
theorem layout_prefix_eq (hf : k.Fits) {k' : Code} (hf' : k'.Fits) (h : k'.layout <+: k.layout) :
    k'.layout = k.layout := by
  obtain ⟨rest, hr⟩ := h
  have hk : Code.decode k.layout = .ok k := decode_eq_ok_iff.mpr ⟨hf, [], (List.append_nil _).symm⟩
  have hk' : Code.decode k.layout = .ok k' := decode_eq_ok_iff.mpr ⟨hf', rest, hr.symm⟩
  rw [Except.ok.inj (hk'.symm.trans hk)]

/-- A layout without its end is refused. -/
theorem exists_decode_error_of_prefix (hf : k.Fits) {front : Bytes} (hp : front <+: k.layout)
    (hne : front ≠ k.layout) : ∃ e, Code.decode front = .error e := by
  rw [Outcome.exists_error_iff]
  intro h
  obtain ⟨k', hk'⟩ := h
  obtain ⟨hf', rest, rfl⟩ := decode_eq_ok_iff.mp hk'
  have hl : k'.layout <+: k.layout := (List.prefix_append _ _).trans hp
  have he := layout_prefix_eq hf hf' hl
  have hlen := hp.length_le
  rw [List.length_append, he] at hlen
  have hrest : rest = [] := List.eq_nil_of_length_eq_zero (by omega)
  exact hne (by rw [hrest, List.append_nil, he])

/-- **Which byte strings hold some code.** Code is decoded from a byte string exactly if the code can be written and its
layout stands in front of the byte string, whatever follows it. So more bytes at the end never change what is decoded,
and a layout without its end is refused. -/
theorem decode_iff_layout (d : Bytes) (k : Code) :
    (Code.decode d = .ok k ↔ k.Fits ∧ ∃ rest, d = k.layout ++ rest) ∧
    (Code.decode d = .ok k → ∀ more, Code.decode (d ++ more) = .ok k) ∧
    (k.Fits → ∀ front, front <+: k.layout → front ≠ k.layout → ∃ e, Code.decode front = .error e) :=
  ⟨decode_eq_ok_iff, decode_before_more, fun hf _ hp hne => exists_decode_error_of_prefix hf hp hne⟩

/-- A `return` with a handler of all exceptions and an attribute of one byte. -/
def guardedReturn : Code := ⟨1, 2, [0xb1], [⟨0, 1, 0, 0⟩], [⟨9, [0xff]⟩]⟩

/-- Two bytes after the layout change nothing, and the layout without its last byte is refused. -/
theorem decode_guardedReturn :
    (guardedReturn.Fits ∧ Code.decode guardedReturn.layout = .ok guardedReturn) ∧
    Code.decode (guardedReturn.layout ++ [0x00, 0xcb]) = .ok guardedReturn ∧
    ∃ e, Code.decode (guardedReturn.layout.take 27) = .error e := by
  have hf : guardedReturn.Fits := ⟨by decide, by decide, by decide, fun a ha => ?_⟩
  · obtain ⟨hdecode, hmore, hfront⟩ := decode_iff_layout guardedReturn.layout guardedReturn
    have hd : Code.decode guardedReturn.layout = .ok guardedReturn := hdecode.mpr ⟨hf, [], (List.append_nil _).symm⟩
    exact ⟨⟨hf, hd⟩, hmore hd _, hfront hf _ (List.take_prefix _ _) (by decide)⟩
  · obtain rfl := List.mem_singleton.mp ha
    show 1 < Bytes.capacity 4
    decide

end Code
end JvmAccessors
