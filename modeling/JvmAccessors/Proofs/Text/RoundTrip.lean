import JvmAccessors.Proofs.Outcome
import JvmAccessors.Text.ModifiedUtf8

/-!
# Modified UTF-8 is read as it is written

Reading takes off the front just the code unit that was written there (`units_unitBytes`, `eq_unitBytes_of_units`) and
just the character (`chars_charBytes`, `eq_flatMap_of_chars`). So a byte string is the text that it is written for
(`decode_encode`, `eq_encode_of_decode`). No bytes of a text end inside a character of another one that they stand in
front of (`flatMap_prefix_iff`), so a text starts with another exactly if its bytes do (`isPrefixOf_encode_iff`). Main
statement: texts can be told apart and put together by their bytes alone (`encode_start_exact`).
-/

namespace JvmAccessors
namespace ModifiedUtf8

/-! ## Code units -/

section UnitLemmas

variable {start u : Nat} {a b c : UInt8} {rest : Bytes}

theorem isContinuation_iff : isContinuation b = true ↔ 0x80 ≤ b.toNat ∧ b.toNat < 0xc0 := by
  simp [isContinuation, UInt8.le_iff_toNat_le, UInt8.lt_iff_toNat_lt]

theorem not_ascii (h : 0x80 ≤ a.toNat) : a ≠ 0 ∧ ¬ a < 0x80 := by
  refine ⟨?_, UInt8.not_lt.mpr (UInt8.le_iff_toNat_le.mpr h)⟩
  rintro rfl
  exact absurd h (by decide)

theorem units_one (h0 : 0 < a.toNat) (h : a.toNat < 0x80) :
    units start (a :: rest) = .unit start a.toNat (units (start + 1) rest) := by
  have ha : a ≠ 0 := by
    rintro rfl
    exact absurd h0 (by decide)
  have hlt : a < 0x80 := UInt8.lt_iff_toNat_lt.mpr h
  rw [units.eq_def]
  simp only [if_neg ha, if_pos hlt]

theorem units_two (h1 : 0xc0 ≤ a.toNat) (h2 : a.toNat < 0xe0) (hb : isContinuation b = true)
    (hu : u = (a.toNat - 0xc0) * 64 + (b.toNat - 0x80)) (hlong : u = 0 ∨ 0x80 ≤ u) :
    units start (a :: b :: rest) = .unit start u (units (start + 2) rest) := by
  obtain ⟨h0, hlt⟩ := not_ascii (Nat.le_trans (by decide) h1)
  have hr : 0xc0 ≤ a ∧ a < 0xe0 := ⟨UInt8.le_iff_toNat_le.mpr h1, UInt8.lt_iff_toNat_lt.mpr h2⟩
  rw [units.eq_def]
  simp only [if_neg h0, if_neg hlt, if_pos hr, hb, if_true, ← hu, if_pos hlong]

theorem units_three (h1 : 0xe0 ≤ a.toNat) (h2 : a.toNat < 0xf0) (hb : isContinuation b = true)
    (hc : isContinuation c = true) (hu : u = (a.toNat - 0xe0) * 4096 + (b.toNat - 0x80) * 64 + (c.toNat - 0x80))
    (hlong : 0x800 ≤ u) : units start (a :: b :: c :: rest) = .unit start u (units (start + 3) rest) := by
  obtain ⟨h0, hlt⟩ := not_ascii (Nat.le_trans (by decide) h1)
  have hn : ¬ (0xc0 ≤ a ∧ a < 0xe0) := fun h => Nat.not_lt.mpr h1 (UInt8.lt_iff_toNat_lt.mp h.2)
  have hr : 0xe0 ≤ a ∧ a < 0xf0 := ⟨UInt8.le_iff_toNat_le.mpr h1, UInt8.lt_iff_toNat_lt.mpr h2⟩
  rw [units.eq_def]
  simp only [if_neg h0, if_neg hlt, if_neg hn, if_pos hr, hb, hc, if_true, ← hu, if_pos hlong]

theorem toNat_byte {n : Nat} (h : n < 256) : (UInt8.ofNat n).toNat = n := UInt8.toNat_ofNat_of_lt' h

/-- A code unit is read back from a byte string that starts with its bytes. -/
theorem units_unitBytes (hu : u < 0x10000) :
    units start (unitBytes u ++ rest) = .unit start u (units (start + (unitBytes u).length) rest) := by
  unfold unitBytes
  split
  · rename_i h
    have hn := toNat_byte (n := u) (by omega)
    have hone : units start (UInt8.ofNat u :: rest) = _ := units_one (by omega) (by omega)
    rw [hn] at hone
    exact hone
  · rename_i h1
    split
    · rename_i h2
      have ha := toNat_byte (n := 0xc0 + u / 64) (by omega)
      have hb := toNat_byte (n := 0x80 + u % 64) (by omega)
      exact units_two (by omega) (by omega) (isContinuation_iff.mpr (by omega)) (by omega) (by omega)
    · rename_i h2
      have ha := toNat_byte (n := 0xe0 + u / 4096) (by omega)
      have hb := toNat_byte (n := 0x80 + u / 64 % 64) (by omega)
      have hc := toNat_byte (n := 0x80 + u % 64) (by omega)
      exact units_three (by omega) (by omega) (isContinuation_iff.mpr (by omega)) (isContinuation_iff.mpr (by omega))
        (by omega) (by omega)

theorem unitBytes_one (h0 : 0 < a.toNat) (h : a.toNat < 0x80) : unitBytes a.toNat = [a] := by
  rw [unitBytes, if_pos ⟨h0, h⟩, UInt8.ofNat_toNat]

theorem unitBytes_two (h1 : 0xc0 ≤ a.toNat) (h2 : a.toNat < 0xe0) (hb : 0x80 ≤ b.toNat ∧ b.toNat < 0xc0)
    (hu : u = (a.toNat - 0xc0) * 64 + (b.toNat - 0x80)) (hlong : u = 0 ∨ 0x80 ≤ u) : unitBytes u = [a, b] := by
  have ha : 0xc0 + u / 64 = a.toNat := by omega
  have hb' : 0x80 + u % 64 = b.toNat := by omega
  rw [unitBytes, if_neg (by omega), if_pos (by omega), ha, hb', UInt8.ofNat_toNat, UInt8.ofNat_toNat]

theorem unitBytes_three (h1 : 0xe0 ≤ a.toNat) (h2 : a.toNat < 0xf0) (hb : 0x80 ≤ b.toNat ∧ b.toNat < 0xc0)
    (hc : 0x80 ≤ c.toNat ∧ c.toNat < 0xc0)
    (hu : u = (a.toNat - 0xe0) * 4096 + (b.toNat - 0x80) * 64 + (c.toNat - 0x80)) (hlong : 0x800 ≤ u) :
    unitBytes u = [a, b, c] := by
  have ha : 0xe0 + u / 4096 = a.toNat := by omega
  have hb' : 0x80 + u / 64 % 64 = b.toNat := by omega
  have hc' : 0x80 + u % 64 = c.toNat := by omega
  rw [unitBytes, if_neg (by omega), if_neg (by omega), ha, hb', hc', UInt8.ofNat_toNat, UInt8.ofNat_toNat,
    UInt8.ofNat_toNat]

/-- A code unit that was read stands in front, in its bytes. -/
theorem eq_unitBytes_of_units {bytes : Bytes} {s : Nat} {tail : Units} (h : units start bytes = .unit s u tail) :
    u < 0x10000 ∧ ∃ rest, bytes = unitBytes u ++ rest ∧ tail = units (start + (unitBytes u).length) rest := by
  rw [units.eq_def] at h
  split at h
  · cases h
  rename_i a rest
  split at h
  · cases h
  rename_i h0
  split at h
  · rename_i h1
    cases h
    have hpos : 0 < a.toNat := Nat.pos_of_ne_zero fun he => h0 (UInt8.toNat_inj.mp he)
    rw [unitBytes_one hpos (UInt8.lt_iff_toNat_lt.mp h1)]
    exact ⟨Nat.lt_trans a.toNat_lt (by decide), rest, rfl, rfl⟩
  split at h
  · rename_i h2
    have ha1 := UInt8.le_iff_toNat_le.mp h2.1
    have ha2 := UInt8.lt_iff_toNat_lt.mp h2.2
    split at h
    · cases h
    split at h
    · rename_i hb
      have hb := isContinuation_iff.mp hb
      dsimp only at h
      split at h
      · rename_i hlong
        cases h
        rw [unitBytes_two ha1 ha2 hb rfl hlong]
        exact ⟨by simp only [UInt8.reduceToNat] at ha1 ha2; omega, _, rfl, rfl⟩
      · cases h
    · cases h
  split at h
  · rename_i h3
    have ha1 := UInt8.le_iff_toNat_le.mp h3.1
    have ha2 := UInt8.lt_iff_toNat_lt.mp h3.2
    split at h
    · cases h
    split at h
    · rename_i hb
      have hb := isContinuation_iff.mp hb
      split at h
      · cases h
      split at h
      · rename_i hc
        have hc := isContinuation_iff.mp hc
        dsimp only at h
        split at h
        · rename_i hlong
          cases h
          rw [unitBytes_three ha1 ha2 hb hc rfl hlong]
          exact ⟨by simp only [UInt8.reduceToNat] at ha1 ha2; omega, _, rfl, rfl⟩
        · cases h
      · cases h
    · cases h
  · cases h

end UnitLemmas

/-! ## Characters -/

section CharLemmas

variable {start u v : Nat}

theorem toNat_ofNat {n : Nat} (h : n.isValidChar) : (Char.ofNat n).toNat = n := by
  rw [Char.ofNat, dif_pos h]
  rfl

theorem isHigh_iff : isHigh u = true ↔ 0xd800 ≤ u ∧ u < 0xdc00 := by simp [isHigh]

theorem isLow_iff : isLow u = true ↔ 0xdc00 ≤ u ∧ u < 0xe000 := by simp [isLow]

/-- A number outside the range of halves is no half of a pair. -/
theorem not_half (h : u < 0xd800 ∨ 0xdfff < u) : isHigh u = false ∧ isLow u = false := by
  rw [Bool.eq_false_iff, Bool.eq_false_iff, Ne, Ne, isHigh_iff, isLow_iff]
  omega

theorem charBytes_of_lt {c : Char} (h : c.toNat < 0x10000) : charBytes c = unitBytes c.toNat := by
  simp [charBytes, charUnits, h]

theorem charBytes_of_le {c : Char} (h : 0x10000 ≤ c.toNat) : charBytes c =
    unitBytes (0xd800 + (c.toNat - 0x10000) / 1024) ++ unitBytes (0xdc00 + (c.toNat - 0x10000) % 1024) := by
  simp [charBytes, charUnits, Nat.not_lt.mpr h]

/-- A unit that is no half of a pair is the number of a character. -/
theorem isValidChar_unit (hu : u < 0x10000) (hh : isHigh u = false) (hl : isLow u = false) : u.isValidChar := by
  have hh : ¬ (0xd800 ≤ u ∧ u < 0xdc00) := mt isHigh_iff.mpr (Bool.eq_false_iff.mp hh)
  have hl : ¬ (0xdc00 ≤ u ∧ u < 0xe000) := mt isLow_iff.mpr (Bool.eq_false_iff.mp hl)
  unfold Nat.isValidChar
  omega

/-- The number that a surrogate pair gives is that of a character. -/
theorem isValidChar_pairCode (hu : isHigh u = true) (hv : isLow v = true) : (pairCode u v).isValidChar := by
  have hu := isHigh_iff.mp hu
  have hv := isLow_iff.mp hv
  unfold pairCode Nat.isValidChar
  omega

theorem scalar_eq_ok (h : u.isValidChar) : scalar start u = .ok (Char.ofNat u) := by
  rw [scalar, if_pos h]

/-- A unit that is no half of a pair stands for a character. -/
theorem charBytes_ofNat (hu : u < 0x10000) (hh : isHigh u = false) (hl : isLow u = false) :
    charBytes (Char.ofNat u) = unitBytes u := by
  have hn : (Char.ofNat u).toNat = u := toNat_ofNat (isValidChar_unit hu hh hl)
  rw [charBytes_of_lt (by omega), hn]

/-- The halves of a pair are the units of the character that it stands for. -/
theorem charBytes_pair (hu : isHigh u = true) (hv : isLow v = true) :
    charBytes (Char.ofNat (pairCode u v)) = unitBytes u ++ unitBytes v := by
  have hn : (Char.ofNat (pairCode u v)).toNat = pairCode u v := toNat_ofNat (isValidChar_pairCode hu hv)
  have hu := isHigh_iff.mp hu
  have hv := isLow_iff.mp hv
  have hp : pairCode u v = 0x10000 + (u - 0xd800) * 1024 + (v - 0xdc00) := rfl
  have hhigh : 0xd800 + (pairCode u v - 0x10000) / 1024 = u := by omega
  have hlow : 0xdc00 + (pairCode u v - 0x10000) % 1024 = v := by omega
  rw [charBytes_of_le (by omega), hn, hhigh, hlow]

theorem chars_unit {tail : Units} (hu : u < 0x10000) (hh : isHigh u = false) (hl : isLow u = false) :
    (Units.unit start u tail).chars = tail.chars.map (Char.ofNat u :: ·) := by
  rw [Units.chars.eq_def]
  simp only [hh, hl, Bool.false_eq_true, if_false, scalar_eq_ok (isValidChar_unit hu hh hl)]
  rfl

theorem chars_pair {stop : Nat} {tail : Units} (hh : isHigh u = true) (hl : isLow v = true) :
    (Units.unit start u (.unit stop v tail)).chars = tail.chars.map (Char.ofNat (pairCode u v) :: ·) := by
  rw [Units.chars.eq_def]
  simp only [hh, hl, if_true, scalar_eq_ok (isValidChar_pairCode hh hl)]
  rfl

/-- A character is read back from a byte string that starts with its bytes. -/
theorem chars_charBytes (c : Char) (start : Nat) (rest : Bytes) :
    (units start (charBytes c ++ rest)).chars =
      (units (start + (charBytes c).length) rest).chars.map (c :: ·) := by
  have hvalid : c.toNat < 0xd800 ∨ 0xdfff < c.toNat ∧ c.toNat < 0x110000 := c.valid
  rcases Nat.lt_or_ge c.toNat 0x10000 with h | h
  · obtain ⟨hh, hl⟩ := not_half (u := c.toNat) (by omega)
    rw [charBytes_of_lt h, units_unitBytes h, chars_unit h hh hl, Char.ofNat_toNat]
  · have hb := charBytes_of_le h
    generalize hu : 0xd800 + (c.toNat - 0x10000) / 1024 = u at hb
    generalize hv : 0xdc00 + (c.toNat - 0x10000) % 1024 = v at hb
    have hh : isHigh u = true := isHigh_iff.mpr (by omega)
    have hl : isLow v = true := isLow_iff.mpr (by omega)
    have hn : pairCode u v = c.toNat := by
      unfold pairCode
      omega
    have hc : Char.ofNat (pairCode u v) = c := by rw [hn, Char.ofNat_toNat]
    rw [hb, List.append_assoc, units_unitBytes (by omega), units_unitBytes (by omega), chars_pair hh hl, hc,
      List.length_append, Nat.add_assoc]

/-- Characters are read back from a byte string that starts with their bytes. -/
theorem chars_flatMap (rest : Bytes) : ∀ (cs : List Char) (start : Nat), ∃ stop,
    (units start (cs.flatMap charBytes ++ rest)).chars = (units stop rest).chars.map (cs ++ ·)
  | [], start => ⟨start, by cases h : (units start rest).chars <;> simp [h, Except.map]⟩
  | c :: cs, start => by
    obtain ⟨stop, h⟩ := chars_flatMap rest cs (start + (charBytes c).length)
    refine ⟨stop, ?_⟩
    rw [List.flatMap_cons, List.append_assoc, chars_charBytes, h]
    cases (units stop rest).chars <;> rfl

theorem eq_nil_of_units {b : Bytes} (h : units start b = .done) : b = [] := by
  rw [units.eq_def] at h
  grind

/-- What stops the units of a byte string is never the number of a unit. -/
theorem ne_invalidCode_of_units {b : Bytes} {cause : Error} (h : units start b = .broken cause) (code offset : Nat) :
    cause ≠ .invalidCode code offset := by
  rw [units.eq_def] at h
  grind

/-- **What stands in front of a byte string**: nothing, the bytes of a character, or something that cannot be read, but
then not because a number is that of no character. -/
theorem chars_cases (start : Nat) (b : Bytes) : b = [] ∨ (∃ c rest, b = charBytes c ++ rest) ∨
    ∃ cause, (units start b).chars = .error cause ∧ ∀ code offset, cause ≠ .invalidCode code offset := by
  cases hu : units start b with
  | done => exact .inl (eq_nil_of_units hu)
  | broken cause => exact .inr (.inr ⟨cause, rfl, ne_invalidCode_of_units hu⟩)
  | unit s u tail =>
    obtain ⟨hlt, rest, rfl, rfl⟩ := eq_unitBytes_of_units hu
    cases hh : isHigh u with
    | false =>
      cases hl : isLow u with
      | true =>
        refine .inr (.inr ⟨.unpaired s, ?_, nofun⟩)
        rw [Units.chars.eq_def]
        simp only [hh, hl, Bool.false_eq_true, if_false, if_true]
      | false => exact .inr (.inl ⟨Char.ofNat u, rest, by rw [charBytes_ofNat hlt hh hl]⟩)
    | true =>
      -- the second half of the pair is the next unit, and not every unit is one
      rw [Units.chars.eq_def]
      simp only [hh, if_true]
      cases hv : units (start + (unitBytes u).length) rest with
      | done => exact .inr (.inr ⟨.unpaired s, rfl, nofun⟩)
      | broken cause => exact .inr (.inr ⟨cause, rfl, ne_invalidCode_of_units hv⟩)
      | unit stop v tail =>
        obtain ⟨-, rest, rfl, rfl⟩ := eq_unitBytes_of_units hv
        cases hl : isLow v with
        | true =>
          exact .inr (.inl ⟨Char.ofNat (pairCode u v), rest, by rw [charBytes_pair hh hl, List.append_assoc]⟩)
        | false => exact .inr (.inr ⟨.unpaired s, by simp only [hl, Bool.false_eq_true, if_false], nofun⟩)

theorem length_charBytes_pos (c : Char) : 0 < (charBytes c).length := by
  have hu (u : Nat) : 0 < (unitBytes u).length := by
    unfold unitBytes
    split
    · simp
    · split <;> simp
  rcases Nat.lt_or_ge c.toNat 0x10000 with h | h
  · rw [charBytes_of_lt h]
    exact hu _
  · rw [charBytes_of_le h, List.length_append]
    exact Nat.add_pos_left (hu _) _

/-- Induction on a byte string, character by character from the front, until one cannot be read. -/
theorem chars_induction {motive : Nat → Bytes → Prop} (nil : ∀ start, motive start [])
    (char : ∀ start c rest, motive (start + (charBytes c).length) rest → motive start (charBytes c ++ rest))
    (broken : ∀ start b cause, (units start b).chars = .error cause →
      (∀ code offset, cause ≠ .invalidCode code offset) → motive start b) (start : Nat) (b : Bytes) : motive start b := by
  rcases chars_cases start b with rfl | ⟨c, rest, rfl⟩ | ⟨cause, he, hn⟩
  · exact nil start
  · exact char start c rest (chars_induction nil char broken _ rest)
  · exact broken start b cause he hn
termination_by b.length
decreasing_by
  subst b
  rw [List.length_append]
  exact Nat.lt_add_of_pos_left (length_charBytes_pos c)

/-- Characters that were read are the byte string, each in its bytes. -/
theorem eq_flatMap_of_chars {start : Nat} {b : Bytes} {cs : List Char} (h : (units start b).chars = .ok cs) :
    b = cs.flatMap charBytes := by
  induction start, b using chars_induction generalizing cs with
  | nil start =>
    cases h
    rfl
  | char start c rest ih =>
    rw [chars_charBytes] at h
    obtain ⟨cs, hcs, rfl⟩ := Outcome.map_eq_ok.mp h
    rw [List.flatMap_cons, ← ih hcs]
  | broken start b cause he hn => cases he.symm.trans h

/-- No number that is handed on is that of no character. -/
theorem chars_ne_invalidCode (start : Nat) (b : Bytes) (code offset : Nat) :
    (units start b).chars ≠ .error (.invalidCode code offset) := by
  induction start, b using chars_induction with
  | nil start => exact nofun
  | char start c rest ih =>
    rw [chars_charBytes]
    intro h
    cases hr : (units (start + (charBytes c).length) rest).chars with
    | error e =>
      rw [hr] at h ih
      cases h
      exact ih rfl
    | ok cs =>
      rw [hr] at h
      cases h
  | broken start b cause he hn =>
    intro h
    cases he.symm.trans h
    exact hn code offset rfl

end CharLemmas

/-! ## Texts -/

/-- A text is read back from its bytes. -/
theorem decode_encode (text : String) : decode (encode text) = .ok text := by
  obtain ⟨stop, h⟩ := chars_flatMap [] text.toList 0
  rw [List.append_nil] at h
  rw [decode, encode, h]
  simp [units, Units.chars, Except.map]

/-- A byte string that is read as a text is the bytes of that text. -/
theorem eq_encode_of_decode {b : Bytes} {text : String} (h : decode b = .ok text) : b = encode text := by
  obtain ⟨cs, hcs, rfl⟩ := Outcome.map_eq_ok.mp h
  rw [encode, String.toList_ofList]
  exact eq_flatMap_of_chars hcs

theorem flatMap_prefix_iff {cs ds : List Char} : cs.flatMap charBytes <+: ds.flatMap charBytes ↔ cs <+: ds := by
  constructor
  · rintro ⟨rest, h⟩
    obtain ⟨stop, hc⟩ := chars_flatMap rest cs 0
    obtain ⟨stop', hd⟩ := chars_flatMap [] ds 0
    rw [List.append_nil, ← h, hc] at hd
    obtain ⟨es, _, he⟩ := Outcome.map_eq_ok.mp (hd.trans (by simp [units, Units.chars, Except.map] : _ = Except.ok ds))
    exact ⟨es, he⟩
  · rintro ⟨es, rfl⟩
    exact ⟨es.flatMap charBytes, by rw [List.flatMap_append]⟩

/-- A byte string that is read as a text starts with the bytes of another exactly if the text starts with that. -/
theorem isPrefixOf_encode_iff {b : Bytes} {text start : String} (h : decode b = .ok text) :
    (encode start).isPrefixOf b = true ↔ start.toList <+: text.toList := by
  rw [List.isPrefixOf_iff_prefix, eq_encode_of_decode h]
  exact flatMap_prefix_iff

theorem encode_append (p q : String) : encode (p ++ q) = encode p ++ encode q := by
  rw [encode, String.toList_append, List.flatMap_append]
  rfl

/-- What follows the bytes of a text is read on its own. -/
theorem decode_encode_append_iff {p s : String} {rest : Bytes} :
    decode (encode p ++ rest) = .ok s ↔ ∃ q, decode rest = .ok q ∧ s = p ++ q := by
  constructor
  · intro h
    have hb : encode p ++ rest = encode s := eq_encode_of_decode h
    obtain ⟨cs, hcs⟩ := flatMap_prefix_iff.mp (⟨rest, hb⟩ : encode p <+: encode s)
    have hs : s = p ++ String.ofList cs := String.toList_injective (by rw [← hcs]; simp)
    refine ⟨String.ofList cs, ?_, hs⟩
    rw [hs, encode_append] at hb
    rw [List.append_cancel_left hb]
    exact decode_encode _
  · rintro ⟨q, hq, rfl⟩
    rw [eq_encode_of_decode hq, ← encode_append]
    exact decode_encode _

/-- **A text starts with another exactly if its bytes do.** Of a byte string that is read as a text it can be told from
its bytes alone whether that text starts with another; the bytes of two texts in a row are those of the text that they
make together; and what follows the bytes of a text is read as if it stood alone. -/
theorem encode_start_exact (p : String) :
    (∀ b s, decode b = .ok s → ((encode p).isPrefixOf b = true ↔ p.toList <+: s.toList)) ∧
    (∀ q, encode (p ++ q) = encode p ++ encode q) ∧
    ∀ rest s, decode (encode p ++ rest) = .ok s ↔ ∃ q, decode rest = .ok q ∧ s = p ++ q :=
  ⟨fun _ _ => isPrefixOf_encode_iff, encode_append p, fun _ _ => decode_encode_append_iff⟩

/-- Two characters above `U+FFFF` may differ in their last byte alone; neither stands in front of the other. -/
theorem encode_start_smile : decode [0x61, 0xed, 0xa0, 0xbd, 0xed, 0xb8, 0x80] = .ok "a😀" ∧
    (encode "a").isPrefixOf [0x61, 0xed, 0xa0, 0xbd, 0xed, 0xb8, 0x80] = true ∧
    (encode "a😁").dropLast = [0x61, 0xed, 0xa0, 0xbd, 0xed, 0xb8] ∧
    ¬ (encode "a😁").isPrefixOf [0x61, 0xed, 0xa0, 0xbd, 0xed, 0xb8, 0x80] = true := by
  have h : decode [0x61, 0xed, 0xa0, 0xbd, 0xed, 0xb8, 0x80] = .ok "a😀" :=
    Outcome.toOption_eq_some.mp (by decide +kernel)
  exact ⟨h, ((encode_start_exact "a").1 _ _ h).mpr (by decide), by decide,
    mt ((encode_start_exact "a😁").1 _ _ h).mp (by decide)⟩

end ModifiedUtf8
end JvmAccessors
