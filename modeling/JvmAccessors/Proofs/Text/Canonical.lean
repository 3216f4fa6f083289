import JvmAccessors.Proofs.Text.RoundTrip

/-!
# The byte strings that are texts

`Spelling` gives the bytes of a character range by range, and `Canonical` the byte strings that consist of them: no NUL
stands in one byte, no unit is longer than it has to be except NUL, no lead byte announces four bytes, and a half of a
surrogate pair stands only in a pair, the first half first. These byte strings, and no others, are read as texts
(`exists_decode_iff`), each as the one text that it is written for (`decode_exact`).
-/

namespace JvmAccessors
namespace ModifiedUtf8

/-- A byte after the lead byte of a unit. -/
def Tail (b : UInt8) : Prop := 0x80 ≤ b.toNat ∧ b.toNat ≤ 0xbf

/-- The bytes of a character. -/
inductive Spelling : Bytes → Prop
  /-- `U+0001` to `U+007F` -/
  | one {a : UInt8} : 0x01 ≤ a.toNat → a.toNat ≤ 0x7f → Spelling [a]
  /-- NUL, the only unit that is longer than it has to be -/
  | nul : Spelling [0xc0, 0x80]
  /-- `U+0080` to `U+07FF` -/
  | two {a b : UInt8} : 0xc2 ≤ a.toNat → a.toNat ≤ 0xdf → Tail b → Spelling [a, b]
  /-- `U+0800` to `U+FFFF`, without the halves of surrogate pairs -/
  | three {a b c : UInt8} : 0xe0 ≤ a.toNat → a.toNat ≤ 0xef → Tail b → Tail c →
      (a.toNat = 0xe0 → 0xa0 ≤ b.toNat) → (a.toNat = 0xed → b.toNat ≤ 0x9f) → Spelling [a, b, c]
  /-- Above `U+FFFF`: a first half and a second half -/
  | pair {b c d e : UInt8} : 0xa0 ≤ b.toNat → b.toNat ≤ 0xaf → Tail c → 0xb0 ≤ d.toNat → d.toNat ≤ 0xbf → Tail e →
      Spelling [0xed, b, c, 0xed, d, e]

/-- The bytes of characters in a row. -/
inductive Canonical : Bytes → Prop
  | nil : Canonical []
  | cons {chunk rest : Bytes} : Spelling chunk → Canonical rest → Canonical (chunk ++ rest)

/-! ## The bytes of a character -/

section Spellings

variable {u v : Nat}

/-- A byte after the lead byte holds six bits of the unit. -/
theorem tail_ofNat (n : Nat) : Tail (UInt8.ofNat (0x80 + n % 64)) := by
  have hn := toNat_byte (n := 0x80 + n % 64) (by omega)
  unfold Tail
  omega

/-- A unit below `U+0800` has the bytes of a character. -/
theorem spelling_unitBytes_of_lt (hu : u < 0x800) : Spelling (unitBytes u) := by
  by_cases h1 : 0 < u ∧ u < 0x80
  · have ha := toNat_byte (n := u) (by omega)
    rw [unitBytes, if_pos h1]
    exact .one (by omega) (by omega)
  · rw [unitBytes, if_neg h1, if_pos hu]
    rcases Nat.eq_zero_or_pos u with rfl | hpos
    · exact .nul
    · have ha := toNat_byte (n := 0xc0 + u / 64) (by omega)
      exact .two (by omega) (by omega) (tail_ofNat u)

theorem unitBytes_of_le (hu : 0x800 ≤ u) : unitBytes u =
    [UInt8.ofNat (0xe0 + u / 4096), UInt8.ofNat (0x80 + u / 64 % 64), UInt8.ofNat (0x80 + u % 64)] := by
  rw [unitBytes, if_neg (by omega), if_neg (by omega)]

/-- A unit from `U+0800` on that is no half of a pair has the bytes of a character. -/
theorem spelling_unitBytes_of_le (hle : 0x800 ≤ u) (hu : u < 0x10000) (hs : u < 0xd800 ∨ 0xdfff < u) :
    Spelling (unitBytes u) := by
  have ha := toNat_byte (n := 0xe0 + u / 4096) (by omega)
  have hb := toNat_byte (n := 0x80 + u / 64 % 64) (by omega)
  rw [unitBytes_of_le hle]
  exact .three (by omega) (by omega) (tail_ofNat _) (tail_ofNat _) (by omega) (by omega)

/-- The halves of a pair, the first half first, have the bytes of a character. -/
theorem spelling_pair (hu : 0xd800 ≤ u ∧ u < 0xdc00) (hv : 0xdc00 ≤ v ∧ v < 0xe000) :
    Spelling (unitBytes u ++ unitBytes v) := by
  have hlead : 0xe0 + u / 4096 = 0xed := by omega
  have hlead' : 0xe0 + v / 4096 = 0xed := by omega
  have hb := toNat_byte (n := 0x80 + u / 64 % 64) (by omega)
  have hd := toNat_byte (n := 0x80 + v / 64 % 64) (by omega)
  rw [unitBytes_of_le (by omega), unitBytes_of_le (by omega), hlead, hlead']
  exact .pair (by omega) (by omega) (tail_ofNat u) (by omega) (by omega) (tail_ofNat v)

theorem spelling_charBytes (c : Char) : Spelling (charBytes c) := by
  have hvalid : c.toNat < 0xd800 ∨ 0xdfff < c.toNat ∧ c.toNat < 0x110000 := c.valid
  rcases Nat.lt_or_ge c.toNat 0x10000 with h | h
  · rw [charBytes_of_lt h]
    rcases Nat.lt_or_ge c.toNat 0x800 with hlt | hle
    · exact spelling_unitBytes_of_lt hlt
    · exact spelling_unitBytes_of_le hle h (by omega)
  · rw [charBytes_of_le h]
    exact spelling_pair (by omega) (by omega)

theorem exists_char_of_unit (hu : u < 0xd800 ∨ 0xdfff < u ∧ u < 0x10000) : ∃ c, unitBytes u = charBytes c := by
  obtain ⟨hh, hl⟩ := not_half (u := u) (by omega)
  exact ⟨Char.ofNat u, (charBytes_ofNat (by omega) hh hl).symm⟩

/-- What spells a character is its bytes. -/
theorem exists_char_of_spelling {chunk : Bytes} (h : Spelling chunk) : ∃ c, chunk = charBytes c := by
  cases h with
  | @one a h1 h2 =>
    rw [← unitBytes_one (a := a) (by omega) (by omega)]
    exact exists_char_of_unit (by omega)
  | nul => exact ⟨Char.ofNat 0, by decide⟩
  | @two a b h1 h2 hb =>
    obtain ⟨hb1, hb2⟩ := hb
    rw [← unitBytes_two (a := a) (b := b) (by omega) (by omega) (by omega) rfl (by omega)]
    exact exists_char_of_unit (by omega)
  | @three a b c h1 h2 hb hc hlong hhalf =>
    obtain ⟨hb1, hb2⟩ := hb
    obtain ⟨hc1, hc2⟩ := hc
    rw [← unitBytes_three (a := a) (b := b) (c := c) (by omega) (by omega) (by omega) (by omega) rfl (by omega)]
    exact exists_char_of_unit (by omega)
  | @pair b c d e h1 h2 hc h3 h4 he =>
    obtain ⟨hc1, hc2⟩ := hc
    obtain ⟨he1, he2⟩ := he
    have ha : (0xed : UInt8).toNat = 0xed := rfl
    obtain ⟨u, hu, hhigh⟩ : ∃ u, unitBytes u = [0xed, b, c] ∧ 0xd800 ≤ u ∧ u < 0xdc00 :=
      ⟨_, unitBytes_three (by omega) (by omega) (by omega) (by omega) rfl (by omega), by omega⟩
    obtain ⟨v, hv, hlow⟩ : ∃ v, unitBytes v = [0xed, d, e] ∧ 0xdc00 ≤ v ∧ v < 0xe000 :=
      ⟨_, unitBytes_three (by omega) (by omega) (by omega) (by omega) rfl (by omega), by omega⟩
    have hc := charBytes_pair (isHigh_iff.mpr hhigh) (isLow_iff.mpr hlow)
    rw [hu, hv] at hc
    exact ⟨_, hc.symm⟩

end Spellings

/-! ## Texts -/

theorem canonical_flatMap : ∀ cs : List Char, Canonical (cs.flatMap charBytes)
  | [] => .nil
  | c :: cs => .cons (spelling_charBytes c) (canonical_flatMap cs)

theorem exists_chars_of_canonical {b : Bytes} (h : Canonical b) : ∃ cs : List Char, b = cs.flatMap charBytes := by
  induction h with
  | nil => exact ⟨[], rfl⟩
  | cons hs _ ih =>
    obtain ⟨c, rfl⟩ := exists_char_of_spelling hs
    obtain ⟨cs, rfl⟩ := ih
    exact ⟨c :: cs, rfl⟩

/-- The byte strings that are read as texts are those that consist of the bytes of characters. -/
theorem exists_decode_iff {b : Bytes} : (∃ text, decode b = .ok text) ↔ Canonical b := by
  constructor
  · rintro ⟨text, h⟩
    rw [eq_encode_of_decode h]
    exact canonical_flatMap text.toList
  · intro h
    obtain ⟨cs, rfl⟩ := exists_chars_of_canonical h
    have hd := decode_encode (String.ofList cs)
    rw [encode, String.toList_ofList] at hd
    exact ⟨_, hd⟩

theorem decode_ne_invalidCode (b : Bytes) (code offset : Nat) : decode b ≠ .error (.invalidCode code offset) := by
  have hn := chars_ne_invalidCode 0 b code offset
  unfold decode
  cases h : (units 0 b).chars with
  | ok cs => exact nofun
  | error e =>
    intro he
    cases he
    exact hn h

/-- **Reading is the exact inverse of writing.** A byte string is read as a text exactly if it is what is written for
that text, and so as no other. The byte strings that are read are those that consist of the bytes of characters; no two
of them are read as the same text; and no byte string leads to a number that is that of no character. -/
theorem decode_exact (b : Bytes) :
    (∀ text, decode b = .ok text ↔ b = encode text) ∧ (∀ text, decode (encode text) = .ok text) ∧
    ((∃ text, decode b = .ok text) ↔ Canonical b) ∧
    (∀ b' text, decode b = .ok text → decode b' = .ok text → b = b') ∧
    ∀ code offset, decode b ≠ .error (.invalidCode code offset) := by
  refine ⟨fun text => ⟨eq_encode_of_decode, ?_⟩, decode_encode, exists_decode_iff, fun b' text h h' => ?_,
    decode_ne_invalidCode b⟩
  · rintro rfl
    exact decode_encode text
  · rw [eq_encode_of_decode h, eq_encode_of_decode h']

end ModifiedUtf8
end JvmAccessors
