import JvmAccessors.Proofs.Text.RoundTrip

/-!
# Modified UTF-8 beside UTF-8

`Utf8.bytes` is the standard encoding of a text, character by character (`Utf8.bytes_eq`). It is what `encode` writes
for every character but NUL, which takes one byte more, and those above `U+FFFF`, which take two more
(`ModifiedUtf8.charBytes_eq_utf8`, `ModifiedUtf8.length_charBytes`). Main statement: the two encodings of a text are the
same exactly if it has no such character (`ModifiedUtf8.encode_eq_utf8_iff`). The order of texts is that of their UTF-8
as byte strings (`Utf8.lt_iff`), since of two characters the UTF-8 first differs in a byte that is less for the lesser
one (`Utf8.firstLess`).
-/

namespace JvmAccessors

/-! ## The standard encoding -/

namespace Utf8

/-- The bytes of a text in standard UTF-8. -/
def bytes (text : String) : Bytes := text.toUTF8.data.toList

theorem bytes_eq (text : String) : bytes text = text.toList.flatMap String.utf8EncodeChar := by
  conv => lhs; rw [← String.ofList_toList (s := text)]
  simp [bytes, String.ofList, List.utf8Encode]

theorem length_bytes (text : String) : (bytes text).length = text.utf8ByteSize := by
  rw [← String.size_toByteArray]
  rfl

theorem bytes_inj {s t : String} : bytes s = bytes t ↔ s = t := by
  refine ⟨fun h => ?_, fun h => by rw [h]⟩
  exact String.toByteArray_inj.mp (ByteArray.ext (Array.toList_inj.mp h))

section Characters

variable {c : Char}

theorem char_one (h : c.toNat < 0x80) : String.utf8EncodeChar c = [UInt8.ofNat c.toNat] := by
  have hv : c.val.toNat ≤ 0x7f := by
    change c.toNat ≤ _
    omega
  rw [String.utf8EncodeChar]
  simp only [if_pos hv]
  rfl

theorem char_two (h : 0x80 ≤ c.toNat) (h' : c.toNat < 0x800) :
    String.utf8EncodeChar c = [UInt8.ofNat (0xc0 + c.toNat / 64), UInt8.ofNat (0x80 + c.toNat % 64)] := by
  have hn : c.val.toNat = c.toNat := rfl
  have hlead : c.toNat / 64 % 0x20 + 0xc0 = 0xc0 + c.toNat / 64 := by omega
  have htail : c.toNat % 0x40 + 0x80 = 0x80 + c.toNat % 64 := by omega
  rw [String.utf8EncodeChar]
  simp only [hn]
  rw [if_neg (by omega), if_pos (by omega), hlead, htail]

theorem char_three (h : 0x800 ≤ c.toNat) (h' : c.toNat < 0x10000) : String.utf8EncodeChar c =
    [UInt8.ofNat (0xe0 + c.toNat / 4096), UInt8.ofNat (0x80 + c.toNat / 64 % 64), UInt8.ofNat (0x80 + c.toNat % 64)] := by
  have hn : c.val.toNat = c.toNat := rfl
  have hlead : c.toNat / 4096 % 0x10 + 0xe0 = 0xe0 + c.toNat / 4096 := by omega
  have hmid : c.toNat / 64 % 0x40 + 0x80 = 0x80 + c.toNat / 64 % 64 := by omega
  have htail : c.toNat % 0x40 + 0x80 = 0x80 + c.toNat % 64 := by omega
  rw [String.utf8EncodeChar]
  simp only [hn]
  rw [if_neg (by omega), if_neg (by omega), if_pos (by omega), hlead, hmid, htail]

theorem char_four (h : 0x10000 ≤ c.toNat) : String.utf8EncodeChar c =
    [UInt8.ofNat (0xf0 + c.toNat / 262144), UInt8.ofNat (0x80 + c.toNat / 4096 % 64),
      UInt8.ofNat (0x80 + c.toNat / 64 % 64), UInt8.ofNat (0x80 + c.toNat % 64)] := by
  have hn : c.val.toNat = c.toNat := rfl
  have hvalid : c.toNat < 0xd800 ∨ 0xdfff < c.toNat ∧ c.toNat < 0x110000 := c.valid
  have hlead : c.toNat / 262144 % 0x08 + 0xf0 = 0xf0 + c.toNat / 262144 := by omega
  have hmid : c.toNat / 4096 % 0x40 + 0x80 = 0x80 + c.toNat / 4096 % 64 := by omega
  have hmid' : c.toNat / 64 % 0x40 + 0x80 = 0x80 + c.toNat / 64 % 64 := by omega
  have htail : c.toNat % 0x40 + 0x80 = 0x80 + c.toNat % 64 := by omega
  rw [String.utf8EncodeChar]
  simp only [hn]
  rw [if_neg (by omega), if_neg (by omega), if_neg (by omega), hlead, hmid, hmid', htail]

end Characters

end Utf8

/-! ## Where the encodings agree -/

namespace ModifiedUtf8

section Characters

variable {c : Char}

theorem toNat_eq_zero_iff : c.toNat = 0 ↔ c = '\x00' := by
  rw [← Char.toNat_inj]
  rfl

/-- A character that is not NUL and not above `U+FFFF` is written as in UTF-8. -/
theorem charBytes_eq_utf8 (h0 : c ≠ '\x00') (h : c.toNat ≤ 0xffff) : charBytes c = String.utf8EncodeChar c := by
  have hpos : c.toNat ≠ 0 := mt toNat_eq_zero_iff.mp h0
  rw [charBytes_of_lt (by omega), unitBytes]
  split
  · rw [Utf8.char_one (by omega)]
  · split
    · rw [Utf8.char_two (by omega) (by omega)]
    · rw [Utf8.char_three (by omega) (by omega)]

theorem length_unitBytes_of_le {u : Nat} (h : 0x800 ≤ u) : (unitBytes u).length = 3 := by
  rw [unitBytes, if_neg (by omega), if_neg (by omega)]
  rfl

/-- NUL takes one byte more than in UTF-8, and a character above `U+FFFF` two. -/
theorem length_charBytes (c : Char) : (charBytes c).length = (String.utf8EncodeChar c).length +
    (if c = '\x00' then 1 else 0) + (if 0xffff < c.toNat then 2 else 0) := by
  by_cases h0 : c = '\x00'
  · subst h0
    rfl
  · rcases Nat.lt_or_ge 0xffff c.toNat with h | h
    · rw [charBytes_of_le h, List.length_append, length_unitBytes_of_le (by omega), length_unitBytes_of_le (by omega),
        Utf8.char_four h, if_neg h0, if_pos h]
      rfl
    · rw [charBytes_eq_utf8 h0 h, if_neg h0, if_neg (by omega), Nat.add_zero]

/-- The bytes of a unit are neither zero nor lead bytes of four. -/
theorem mem_unitBytes {u : Nat} (hu : u < 0x10000) : ∀ b ∈ unitBytes u, b ≠ 0 ∧ b < 0xf0 := by
  have hbyte (n : Nat) (hpos : 0 < n) (hlt : n < 0xf0) : UInt8.ofNat n ≠ 0 ∧ UInt8.ofNat n < 0xf0 := by
    have hn := toNat_byte (n := n) (by omega)
    refine ⟨fun h => ?_, UInt8.lt_iff_toNat_lt.mpr (by rw [hn]; exact hlt)⟩
    rw [h] at hn
    change 0 = n at hn
    omega
  unfold unitBytes
  split
  · rw [List.forall_mem_singleton]
    exact hbyte u (by omega) (by omega)
  · split
    · rw [List.forall_mem_cons, List.forall_mem_singleton]
      exact ⟨hbyte _ (by omega) (by omega), hbyte _ (by omega) (by omega)⟩
    · rw [List.forall_mem_cons, List.forall_mem_cons, List.forall_mem_singleton]
      exact ⟨hbyte _ (by omega) (by omega), hbyte _ (by omega) (by omega), hbyte _ (by omega) (by omega)⟩

theorem mem_charBytes (c : Char) : ∀ b ∈ charBytes c, b ≠ 0 ∧ b < 0xf0 := by
  have hvalid : c.toNat < 0xd800 ∨ 0xdfff < c.toNat ∧ c.toNat < 0x110000 := c.valid
  rcases Nat.lt_or_ge c.toNat 0x10000 with h | h
  · rw [charBytes_of_lt h]
    exact mem_unitBytes h
  · rw [charBytes_of_le h]
    intro b hb
    rcases List.mem_append.mp hb with hb | hb
    · exact mem_unitBytes (by omega) b hb
    · exact mem_unitBytes (by omega) b hb

end Characters

/-! ## Texts -/

theorem mem_encode {text : String} {b : UInt8} (h : b ∈ encode text) : b ≠ 0 ∧ b < 0xf0 := by
  obtain ⟨c, -, hb⟩ := List.mem_flatMap.mp h
  exact mem_charBytes c b hb

theorem length_flatMap_charBytes : ∀ cs : List Char, (cs.flatMap charBytes).length =
    (cs.flatMap String.utf8EncodeChar).length + cs.count '\x00' + 2 * cs.countP (0xffff < ·.toNat)
  | [] => rfl
  | c :: cs => by
    simp only [List.flatMap_cons, List.length_append, length_flatMap_charBytes cs, length_charBytes, List.count_cons,
      List.countP_cons, beq_iff_eq, decide_eq_true_eq]
    split <;> split <;> omega

theorem length_encode (text : String) : (encode text).length =
    text.utf8ByteSize + text.toList.count '\x00' + 2 * text.toList.countP (0xffff < ·.toNat) := by
  rw [encode, length_flatMap_charBytes, ← Utf8.bytes_eq, Utf8.length_bytes]

/-- **Modified UTF-8 is UTF-8 but for NUL and what is above `U+FFFF`.** The two encodings of a text are the same exactly
if it has neither NUL nor a character above `U+FFFF`. No byte of a text is zero, and none is `0xf0` or above. A text takes
as many bytes as in UTF-8, one more for each NUL and two more for each character above `U+FFFF`. -/
theorem encode_eq_utf8_iff (text : String) :
    (encode text = Utf8.bytes text ↔ ∀ c ∈ text.toList, c ≠ '\x00' ∧ c.toNat ≤ 0xffff) ∧
    (∀ b ∈ encode text, b ≠ 0 ∧ b < 0xf0) ∧
    (encode text).length =
      text.utf8ByteSize + text.toList.count '\x00' + 2 * text.toList.countP (0xffff < ·.toNat) := by
  refine ⟨⟨fun h c hc => ?_, fun h => ?_⟩, fun b => mem_encode, length_encode text⟩
  · -- a longer encoding of one character makes that of the text longer, wherever the character stands
    have hlen := length_encode text
    rw [h, Utf8.length_bytes] at hlen
    have hnul : text.toList.count '\x00' = 0 := by omega
    have habove : text.toList.countP (0xffff < ·.toNat) = 0 := by omega
    refine ⟨?_, ?_⟩
    · rintro rfl
      exact List.count_eq_zero.mp hnul hc
    · simpa using List.countP_eq_zero.mp habove c hc
  · rw [encode, Utf8.bytes_eq, List.flatMap_def, List.flatMap_def]
    congr 1
    exact List.map_congr_left fun c hc => charBytes_eq_utf8 (h c hc).1 (h c hc).2

/-- Characters of one, two and three bytes are written alike; a NUL and a character of four bytes, which stand behind
and in front of others, add three bytes. -/
theorem encode_utf8_smile : encode "Größe€" = Utf8.bytes "Größe€" ∧ encode "😀é\x00€" ≠ Utf8.bytes "😀é\x00€" ∧
    (encode "😀é\x00€").length = "😀é\x00€".utf8ByteSize + 3 := by
  have hplain : "Größe€".toList.all (fun c => c ≠ '\x00' ∧ c.toNat ≤ 0xffff) = true := by decide +kernel
  refine ⟨(encode_eq_utf8_iff _).1.mpr fun c hc => of_decide_eq_true (List.all_eq_true.mp hplain c hc),
    fun h => ((encode_eq_utf8_iff _).1.mp h '\x00' (by decide +kernel)).1 rfl, ?_⟩
  rw [(encode_eq_utf8_iff _).2.2]
  decide +kernel

end ModifiedUtf8

/-! ## Order -/

/-- Two byte strings first differ in a byte that is less in the first of them. -/
def Bytes.FirstLess (a b : Bytes) : Prop :=
  ∃ start x y s t, x < y ∧ a = start ++ x :: s ∧ b = start ++ y :: t

namespace Bytes

theorem FirstLess.of_lead {m n : Nat} (h : m < n) (hn : n < 256) (s t : Bytes) :
    FirstLess (UInt8.ofNat m :: s) (UInt8.ofNat n :: t) := by
  refine ⟨[], _, _, s, t, UInt8.lt_iff_toNat_lt.mpr ?_, rfl, rfl⟩
  rw [ModifiedUtf8.toNat_byte (Nat.lt_trans h hn), ModifiedUtf8.toNat_byte hn]
  exact h

/-- Of two byte strings of one length that of the lesser number comes first. -/
theorem FirstLess.of_toNat_lt : ∀ {a b : Bytes}, a.length = b.length → toNat a < toNat b → FirstLess a b
  | [], [], _, h => absurd h (Nat.lt_irrefl _)
  | x :: a, y :: b, hlength, h => by
    have hl : a.length = b.length := Nat.succ.inj hlength
    rw [toNat_cons, toNat_cons, hl] at h
    by_cases hxy : x = y
    · subst hxy
      have hab : toNat a < toNat b := by omega
      obtain ⟨start, x', y', s, t, hlt, rfl, rfl⟩ := FirstLess.of_toNat_lt hl hab
      exact ⟨x :: start, x', y', s, t, hlt, rfl, rfl⟩
    · refine ⟨[], x, y, a, b, ?_, rfl, rfl⟩
      -- a greater digit in front cannot be made up for by the rest
      apply UInt8.lt_iff_toNat_lt.mpr
      rcases Nat.lt_trichotomy x.toNat y.toNat with hlt | heq | hgt
      · exact hlt
      · exact absurd (UInt8.toNat_inj.mp heq) hxy
      · have hb := toNat_lt b
        have hmul : (y.toNat + 1) * capacity b.length ≤ x.toNat * capacity b.length := Nat.mul_le_mul_right _ hgt
        rw [Nat.add_mul] at hmul
        omega

/-- What follows the first difference does not matter. -/
theorem FirstLess.append_lt {a b : Bytes} (h : FirstLess a b) (s t : Bytes) : a ++ s < b ++ t := by
  obtain ⟨start, x, y, s', t', hlt, rfl, rfl⟩ := h
  rw [List.append_assoc, List.append_assoc]
  exact List.append_left_lt (.rel hlt)

end Bytes

namespace Utf8

/-- Of two characters the UTF-8 of the lesser one comes first, and is no start of the other's. -/
theorem firstLess {c d : Char} (h : c < d) :
    Bytes.FirstLess (String.utf8EncodeChar c) (String.utf8EncodeChar d) := by
  have hlt : c.toNat < d.toNat := UInt32.lt_iff_toNat_lt.mp (Char.lt_def.mp h)
  have hvalid : d.toNat < 0xd800 ∨ 0xdfff < d.toNat ∧ d.toNat < 0x110000 := d.valid
  -- one that takes fewer bytes has a lesser lead byte, and one that takes as many is a lesser number
  rcases Nat.lt_or_ge d.toNat 0x80 with hd | hd
  · rw [char_one hd, char_one (by omega)]
    exact .of_lead hlt (by omega) _ _
  rcases Nat.lt_or_ge d.toNat 0x800 with hd' | hd'
  · rw [char_two hd hd']
    rcases Nat.lt_or_ge c.toNat 0x80 with hc | hc
    · rw [char_one hc]
      exact .of_lead (by omega) (by omega) _ _
    · rw [char_two hc (by omega)]
      refine .of_toNat_lt rfl ?_
      simp (disch := omega) only [Bytes.toNat, List.foldl_cons, List.foldl_nil, ModifiedUtf8.toNat_byte]
      omega
  rcases Nat.lt_or_ge d.toNat 0x10000 with hd'' | hd''
  · rw [char_three hd' hd'']
    rcases Nat.lt_or_ge c.toNat 0x80 with hc | hc
    · rw [char_one hc]
      exact .of_lead (by omega) (by omega) _ _
    rcases Nat.lt_or_ge c.toNat 0x800 with hc' | hc'
    · rw [char_two hc hc']
      exact .of_lead (by omega) (by omega) _ _
    · rw [char_three hc' (by omega)]
      refine .of_toNat_lt rfl ?_
      simp (disch := omega) only [Bytes.toNat, List.foldl_cons, List.foldl_nil, ModifiedUtf8.toNat_byte]
      omega
  · rw [char_four hd'']
    rcases Nat.lt_or_ge c.toNat 0x80 with hc | hc
    · rw [char_one hc]
      exact .of_lead (by omega) (by omega) _ _
    rcases Nat.lt_or_ge c.toNat 0x800 with hc' | hc'
    · rw [char_two hc hc']
      exact .of_lead (by omega) (by omega) _ _
    rcases Nat.lt_or_ge c.toNat 0x10000 with hc'' | hc''
    · rw [char_three hc' hc'']
      exact .of_lead (by omega) (by omega) _ _
    · rw [char_four hc'']
      refine .of_toNat_lt rfl ?_
      simp (disch := omega) only [Bytes.toNat, List.foldl_cons, List.foldl_nil, ModifiedUtf8.toNat_byte]
      omega

/-- Texts in order have their UTF-8 in order. -/
theorem flatMap_lt_of_lt {cs ds : List Char} (h : cs < ds) :
    cs.flatMap String.utf8EncodeChar < ds.flatMap String.utf8EncodeChar := by
  induction h with
  | @nil d ds =>
    have hne := String.utf8EncodeChar_ne_nil (c := d)
    rw [List.flatMap_nil, List.flatMap_cons]
    cases hd : String.utf8EncodeChar d with
    | nil => exact absurd hd hne
    | cons b bs => exact .nil
  | @rel c cs d ds hlt =>
    rw [List.flatMap_cons, List.flatMap_cons]
    exact (firstLess hlt).append_lt _ _
  | @cons c cs ds _ ih =>
    rw [List.flatMap_cons, List.flatMap_cons]
    exact List.append_left_lt ih

/-- **The order of texts is that of their UTF-8**, as byte strings. -/
theorem lt_iff {s t : String} : s < t ↔ bytes s < bytes t := by
  rw [bytes_eq, bytes_eq]
  constructor
  · exact flatMap_lt_of_lt
  · intro h
    refine Decidable.byContradiction fun hst => ?_
    by_cases heq : s = t
    · exact List.lt_irrefl _ (heq ▸ h)
    · have hts : t < s := Decidable.byContradiction fun hts =>
        heq (String.le_antisymm (String.not_lt.mp hts) (String.not_lt.mp hst))
      exact List.lt_asymm h (flatMap_lt_of_lt hts)

end Utf8
end JvmAccessors
