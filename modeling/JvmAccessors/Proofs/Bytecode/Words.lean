import Mathlib.Algebra.Group.Int.Defs
import Mathlib.Algebra.Group.Nat.Defs
import JvmAccessors.Proofs.Bytecode.Cursor

/-!
# Decoding with words of 64 bits

The offsets and lengths of a walk are numbers, which have no bound. `WordCursor.next?` is a decoder that has words of 64
bits for them, unsigned, and signed ones for the entries of a `tableswitch`; it stops with no answer where a sum, a
difference or a product does not fit. Each of its steps is that of the decoder without a bound, as long as the code has
less than `2 ^ 63` bytes (`WordCursor.next?_eq`), and so is the whole of what it answers (`WordCursor.answer?_eq`).

Main statement: no length of a switch wraps, whatever its bounds or its count, so that a switch is accepted exactly if
its table ends in the code (`switch_never_wraps`).
-/

namespace JvmAccessors

/-! ## Checked operations -/

namespace Word

/-- The sum of two words, if it fits. -/
def add? (a b : UInt64) : Option UInt64 := if a.toNat + b.toNat < UInt64.size then some (a + b) else none

/-- The difference of two words, if it fits. -/
def sub? (a b : UInt64) : Option UInt64 := if b.toNat ≤ a.toNat then some (a - b) else none

/-- The product of two words, if it fits. -/
def mul? (a b : UInt64) : Option UInt64 := if a.toNat * b.toNat < UInt64.size then some (a * b) else none

/-- A number fits in a signed word. -/
def Fits (n : Int) : Prop := -2 ^ 63 ≤ n ∧ n < 2 ^ 63

instance (n : Int) : Decidable (Fits n) := inferInstanceAs (Decidable (_ ∧ _))

/-- The sum of two signed words, if it fits. -/
def addSigned? (a b : Int64) : Option Int64 := if Fits (a.toInt + b.toInt) then some (a + b) else none

/-- The difference of two signed words, if it fits. -/
def subSigned? (a b : Int64) : Option Int64 := if Fits (a.toInt - b.toInt) then some (a - b) else none

variable {m n : Nat} {x y : Int}

theorem add?_ofNat (h : m + n < UInt64.size) : add? (.ofNat m) (.ofNat n) = some (.ofNat (m + n)) := by
  rw [add?, UInt64.toNat_ofNat_of_lt' (by omega), UInt64.toNat_ofNat_of_lt' (by omega), if_pos h, UInt64.ofNat_add]

theorem sub?_ofNat (hm : m < UInt64.size) (h : n ≤ m) : sub? (.ofNat m) (.ofNat n) = some (.ofNat (m - n)) := by
  rw [sub?, UInt64.toNat_ofNat_of_lt' hm, UInt64.toNat_ofNat_of_lt' (by omega), if_pos h, UInt64.ofNat_sub h]

theorem mul?_ofNat (hm : m < UInt64.size) (hn : n < UInt64.size) (h : m * n < UInt64.size) :
    mul? (.ofNat m) (.ofNat n) = some (.ofNat (m * n)) := by
  rw [mul?, UInt64.toNat_ofNat_of_lt' hm, UInt64.toNat_ofNat_of_lt' hn, if_pos h, UInt64.ofNat_mul]

theorem addSigned?_ofInt (hx : Fits x) (hy : Fits y) (h : Fits (x + y)) :
    addSigned? (.ofInt x) (.ofInt y) = some (.ofInt (x + y)) := by
  rw [addSigned?, Int64.toInt_ofInt_of_le hx.1 hx.2, Int64.toInt_ofInt_of_le hy.1 hy.2, if_pos h, Int64.ofInt_add]

theorem subSigned?_ofInt (hx : Fits x) (hy : Fits y) (h : Fits (x - y)) :
    subSigned? (.ofInt x) (.ofInt y) = some (.ofInt (x - y)) := by
  rw [subSigned?, Int64.toInt_ofInt_of_le hx.1 hx.2, Int64.toInt_ofInt_of_le hy.1 hy.2, if_pos h, Int64.ofInt_sub]

end Word

/-! ## Lengths in words -/

namespace Instruction

open Word

/-- The padding of a switch at an offset. -/
def wordPadding? (offset : UInt64) : Option UInt64 := do
  let next ← add? offset 1
  let left ← sub? 4 (next % 4)
  return left % 4

/-- How many entries a `tableswitch` has: a signed difference, which is then taken for an unsigned word. -/
def wordEntries? (low high : Int32) : Option UInt64 := do
  let difference ← subSigned? high.toInt64 low.toInt64
  let entries ← addSigned? difference 1
  return entries.toUInt64

/-- How many pairs a `lookupswitch` has: a signed word that is taken for an unsigned one. -/
def wordPairs (pairs : Int32) : UInt64 := pairs.toInt64.toUInt64

/-- The length of a switch: its opcode and padding, the operands in front of the table, and the entries. -/
def wordSwitchLength? (padding operands entries width : UInt64) : Option UInt64 := do
  let aligned ← add? 1 padding
  let head ← add? aligned operands
  let table ← mul? entries width
  add? head table

/-- The padding of a switch at an offset, and where its operands start. -/
def wordOperands? (offset : UInt64) : Option (UInt64 × UInt64) := do
  let padding ← wordPadding? offset
  let next ← add? offset 1
  let start ← add? next padding
  return (padding, start)

/-- The length of a `tableswitch` from its padding and its operands. -/
def wordTable? (padding : UInt64) (operands : Bytes) : Option (Except DecodeError UInt64) :=
  match tableEntries operands with
  | .error e => some (.error (.shortage e))
  | .ok ((low, high), _) =>
    if high < low then some (.error (.invertedBounds low high))
    else do
      let entries ← wordEntries? low high
      let length ← wordSwitchLength? padding 12 entries 4
      some (.ok length)

/-- The length of a `lookupswitch` from its padding and its operands. -/
def wordLookup? (padding : UInt64) (operands : Bytes) : Option (Except DecodeError UInt64) :=
  match lookupPairs operands with
  | .error e => some (.error (.shortage e))
  | .ok (pairs, _) =>
    if pairs < 0 then some (.error (.negativePairs pairs))
    else do
      let length ← wordSwitchLength? padding 8 (wordPairs pairs) 8
      some (.ok length)

/-- The length of a switch at an offset of some code, by what its padding and its operands give. -/
def wordSwitch? (code : Bytes) (offset : UInt64) (measure : UInt64 → Bytes → Option (Except DecodeError UInt64)) :
    Option (Except DecodeError UInt64) := do
  let (padding, start) ← wordOperands? offset
  if code.length < start.toNat then some (.error (.operandsPastEnd start.toNat))
  else measure padding (code.drop start.toNat)

/-- The length of the instruction at an offset of some code. -/
def wordLength? (code : Bytes) (offset : UInt64) (opcode : UInt8) : Option (Except DecodeError UInt64) :=
  match form opcode with
  | .fixed length => some (.ok (.ofNat length))
  | .wide => do
    let next ← add? offset 1
    match code[next.toNat]? with
    | none => some (.error .wideAlone)
    | some modified =>
      match wideLength? modified with
      | some length => some (.ok (.ofNat length))
      | none => some (.error (.unknownWide modified))
  | .tableSwitch => wordSwitch? code offset wordTable?
  | .lookupSwitch => wordSwitch? code offset wordLookup?
  | .unknown => some (.error (.unknownOpcode opcode))

section Lengths

variable {offset : Nat} {low high pairs : Int32}

theorem padding_lt (offset : Nat) : padding offset < 4 := by
  unfold padding
  omega

theorem wordPadding?_ofNat (h : offset + 1 < UInt64.size) :
    wordPadding? (.ofNat offset) = some (.ofNat (padding offset)) := by
  have hsize : UInt64.size = 2 ^ 64 := rfl
  have hmod : UInt64.ofNat (offset + 1) % 4 = .ofNat ((offset + 1) % 4) := (UInt64.ofNat_mod h (by decide)).symm
  have hmod' : UInt64.ofNat (4 - (offset + 1) % 4) % 4 = .ofNat ((4 - (offset + 1) % 4) % 4) :=
    (UInt64.ofNat_mod (by omega) (by decide)).symm
  have hpadding : (4 - (offset + 1) % 4) % 4 = padding offset := by
    unfold padding
    omega
  have hnext : add? (.ofNat offset) 1 = some (.ofNat (offset + 1)) := add?_ofNat (n := 1) h
  have hleft : sub? 4 (.ofNat ((offset + 1) % 4)) = some (.ofNat (4 - (offset + 1) % 4)) :=
    sub?_ofNat (m := 4) (by decide) (by omega)
  simp only [wordPadding?, hnext, hmod, hleft, hmod', hpadding, Option.bind_eq_bind, Option.bind_some, Option.pure_def]

/-- The signed difference of two bounds never wraps. -/
theorem wordEntries?_eq (low high : Int32) :
    wordEntries? low high = some (Int64.ofInt (high.toInt - low.toInt + 1)).toUInt64 := by
  have hl := low.le_toInt
  have hl' := low.toInt_lt
  have hh := high.le_toInt
  have hh' := high.toInt_lt
  have hdifference : subSigned? high.toInt64 low.toInt64 = some (.ofInt (high.toInt - low.toInt)) := by
    rw [← Int64.ofInt_toInt high.toInt64, ← Int64.ofInt_toInt low.toInt64, Int32.toInt_toInt64, Int32.toInt_toInt64]
    exact subSigned?_ofInt ⟨by omega, by omega⟩ ⟨by omega, by omega⟩ ⟨by omega, by omega⟩
  have hentries : addSigned? (.ofInt (high.toInt - low.toInt)) 1 = some (.ofInt (high.toInt - low.toInt + 1)) :=
    addSigned?_ofInt (y := 1) ⟨by omega, by omega⟩ (by decide) ⟨by omega, by omega⟩
  simp only [wordEntries?, hdifference, hentries, Option.bind_eq_bind, Option.bind_some, Option.pure_def]

theorem toUInt64_ofInt {n : Int} (h : 0 ≤ n) : (Int64.ofInt n).toUInt64 = .ofNat n.toNat := by
  obtain ⟨k, rfl⟩ := Int.eq_ofNat_of_zero_le h
  rw [Int64.ofInt_eq_ofNat]
  rfl

/-- A count that is not negative is taken for itself. -/
theorem wordPairs_ofNat (h : 0 ≤ pairs.toInt) :
    wordPairs pairs = .ofNat pairs.toInt.toNat ∧ pairs.toInt.toNat ≤ 2 ^ 31 - 1 := by
  have hlt := pairs.toInt_lt
  exact ⟨by rw [wordPairs, ← Int64.ofInt_toInt pairs.toInt64, Int32.toInt_toInt64, toUInt64_ofInt h], by omega⟩

/-- The length of a switch fits if it has no more than `2 ^ 32` entries. -/
theorem wordSwitchLength?_ofNat {padding operands entries width : Nat} (hp : padding < 4) (ho : operands ≤ 12)
    (he : entries ≤ 2 ^ 32) (hw : width ≤ 8) :
    wordSwitchLength? (.ofNat padding) (.ofNat operands) (.ofNat entries) (.ofNat width) =
      some (.ofNat (1 + padding + operands + width * entries)) := by
  have hsize : UInt64.size = 2 ^ 64 := rfl
  have hle : entries * width ≤ 2 ^ 32 * 8 := Nat.mul_le_mul he hw
  have haligned : add? 1 (.ofNat padding) = some (.ofNat (1 + padding)) := add?_ofNat (m := 1) (by omega)
  have hhead : add? (.ofNat (1 + padding)) (.ofNat operands) = some (.ofNat (1 + padding + operands)) :=
    add?_ofNat (by omega)
  have htable : mul? (.ofNat entries) (.ofNat width) = some (.ofNat (entries * width)) :=
    mul?_ofNat (by omega) (by omega) (by omega)
  have hlength : add? (.ofNat (1 + padding + operands)) (.ofNat (entries * width)) =
      some (.ofNat (1 + padding + operands + width * entries)) := by
    rw [Nat.mul_comm width]
    exact add?_ofNat (by omega)
  simp only [wordSwitchLength?, haligned, hhead, htable, hlength, Option.bind_eq_bind, Option.bind_some]

theorem wordTableLength?_ofNat {padding entries : Nat} (hp : padding < 4) (he : entries ≤ 2 ^ 32) :
    wordSwitchLength? (.ofNat padding) 12 (.ofNat entries) 4 = some (.ofNat (1 + padding + 12 + 4 * entries)) :=
  @wordSwitchLength?_ofNat padding 12 entries 4 hp (by decide) he (by decide)

theorem wordLookupLength?_ofNat {padding pairs : Nat} (hp : padding < 4) (he : pairs ≤ 2 ^ 31 - 1) :
    wordSwitchLength? (.ofNat padding) 8 (.ofNat pairs) 8 = some (.ofNat (1 + padding + 8 + 8 * pairs)) :=
  @wordSwitchLength?_ofNat padding 8 pairs 8 hp (by decide) (by omega) (by decide)

theorem wordOperands?_ofNat (h : offset + 5 ≤ UInt64.size) : wordOperands? (.ofNat offset) =
    some (.ofNat (padding offset), .ofNat (offset + 1 + padding offset)) := by
  have hp := padding_lt offset
  have hnext : add? (.ofNat offset) 1 = some (.ofNat (offset + 1)) := add?_ofNat (n := 1) (by omega)
  have hstart : add? (.ofNat (offset + 1)) (.ofNat (padding offset)) = some (.ofNat (offset + 1 + padding offset)) :=
    add?_ofNat (by omega)
  simp only [wordOperands?, wordPadding?_ofNat (show offset + 1 < UInt64.size by omega), hnext, hstart,
    Option.bind_eq_bind, Option.bind_some, Option.pure_def]

/-- The entries between two bounds, at most `2 ^ 32` of them. -/
theorem wordEntries?_ofNat (h : low.toInt ≤ high.toInt) :
    wordEntries? low high = some (.ofNat (high.toInt - low.toInt + 1).toNat) ∧
      (high.toInt - low.toInt + 1).toNat ≤ 2 ^ 32 := by
  have hl := low.le_toInt
  have hh := high.toInt_lt
  exact ⟨by rw [wordEntries?_eq, toUInt64_ofInt (by omega)], by omega⟩

/-- The length of a `tableswitch` is the same in words. -/
theorem wordTable?_ofNat {padding : Nat} (hp : padding < 4) (operands : Bytes) :
    wordTable? (.ofNat padding) operands = some (Except.map UInt64.ofNat (match tableEntries operands with
      | .error e => .error (.shortage e)
      | .ok ((low, high), _) =>
        if high.toInt < low.toInt then .error (.invertedBounds low high)
        else .ok (1 + padding + 12 + 4 * (high.toInt - low.toInt + 1).toNat))) := by
  unfold wordTable?
  cases tableEntries operands with
  | error e => rfl
  | ok r =>
    obtain ⟨⟨low, high⟩, rest⟩ := r
    by_cases hlt : high.toInt < low.toInt
    · simp only [Int32.lt_iff_toInt_lt, hlt, if_true]
      rfl
    · obtain ⟨hentries, hbound⟩ := wordEntries?_ofNat (Int.not_lt.mp hlt)
      simp only [Int32.lt_iff_toInt_lt, hlt, if_false, hentries, wordTableLength?_ofNat hp hbound, Option.bind_eq_bind,
        Option.bind_some]
      rfl

/-- The length of a `lookupswitch` is the same in words. -/
theorem wordLookup?_ofNat {padding : Nat} (hp : padding < 4) (operands : Bytes) :
    wordLookup? (.ofNat padding) operands = some (Except.map UInt64.ofNat (match lookupPairs operands with
      | .error e => .error (.shortage e)
      | .ok (pairs, _) =>
        if pairs.toInt < 0 then .error (.negativePairs pairs)
        else .ok (1 + padding + 8 + 8 * pairs.toInt.toNat))) := by
  unfold wordLookup?
  cases lookupPairs operands with
  | error e => rfl
  | ok r =>
    obtain ⟨pairs, rest⟩ := r
    have hzero : (0 : Int32).toInt = 0 := rfl
    by_cases hlt : pairs.toInt < 0
    · simp only [Int32.lt_iff_toInt_lt, hzero, hlt, if_true]
      rfl
    · obtain ⟨hpairs, hbound⟩ := wordPairs_ofNat (Int.not_lt.mp hlt)
      simp only [Int32.lt_iff_toInt_lt, hzero, hlt, if_false, hpairs, wordLookupLength?_ofNat hp hbound,
        Option.bind_eq_bind, Option.bind_some]
      rfl

section Code

variable {code after : Bytes} {opcode : UInt8}

/-- The operands of a switch are found in words where they are. -/
theorem wordSwitch?_ofNat (hcode : code.length < 2 ^ 63) (hd : code.drop offset = opcode :: after)
    (measure : UInt64 → Bytes → Option (Except DecodeError UInt64)) : wordSwitch? code (.ofNat offset) measure =
      match after.split? (padding offset) with
      | none => some (.error (.operandsPastEnd (offset + 1 + padding offset)))
      | some (_, operands) => measure (.ofNat (padding offset)) operands := by
  have hsize : UInt64.size = 2 ^ 64 := rfl
  have hp := padding_lt offset
  have hlen := congrArg List.length hd
  rw [List.length_drop, List.length_cons] at hlen
  have hstart : (UInt64.ofNat (offset + 1 + padding offset)).toNat = offset + 1 + padding offset :=
    UInt64.toNat_ofNat_of_lt' (by omega)
  have hdrop : code.drop (offset + 1 + padding offset) = after.drop (padding offset) := by
    rw [← List.drop_drop, ← List.drop_drop, hd, List.drop_one, List.tail_cons]
  simp only [wordSwitch?, wordOperands?_ofNat (show offset + 5 ≤ UInt64.size by omega), hstart, hdrop,
    Option.bind_eq_bind, Option.bind_some, Bytes.split?_eq]
  by_cases hle : padding offset ≤ after.length
  · rw [if_neg (by omega), if_pos hle]
  · rw [if_pos (by omega), if_neg hle]

/-- **The length of an instruction, worked out with words, is the one that is worked out with numbers**, and nothing
wraps on the way. -/
theorem wordLength?_eq (hcode : code.length < 2 ^ 63) (hd : code.drop offset = opcode :: after) :
    wordLength? code (.ofNat offset) opcode = some ((length offset opcode after).map UInt64.ofNat) := by
  have hsize : UInt64.size = 2 ^ 64 := rfl
  have hp := padding_lt offset
  cases hf : form opcode with
  | fixed n => simp only [wordLength?, length, hf]; rfl
  | unknown => simp only [wordLength?, length, hf]; rfl
  | wide =>
    have hlen := congrArg List.length hd
    rw [List.length_drop, List.length_cons] at hlen
    have hnext : add? (.ofNat offset) 1 = some (.ofNat (offset + 1)) := add?_ofNat (n := 1) (by omega)
    have hget : code[(UInt64.ofNat (offset + 1)).toNat]? = after.head? := by
      rw [UInt64.toNat_ofNat_of_lt' (by omega), ← List.head?_drop, ← List.drop_drop, hd, List.drop_one, List.tail_cons]
    simp only [wordLength?, length, hf, hnext, hget, Option.bind_eq_bind, Option.bind_some]
    cases after with
    | nil => rfl
    | cons modified rest => simp only [List.head?_cons]; cases wideLength? modified <;> rfl
  | tableSwitch =>
    simp only [wordLength?, length, hf, wordSwitch?_ofNat hcode hd]
    cases after.split? (padding offset) with
    | none => rfl
    | some parts => exact wordTable?_ofNat hp parts.2
  | lookupSwitch =>
    simp only [wordLength?, length, hf, wordSwitch?_ofNat hcode hd]
    cases after.split? (padding offset) with
    | none => rfl
    | some parts => exact wordLookup?_ofNat hp parts.2

end Code

end Lengths

theorem operandBytes?_le {opcode : UInt8} {n : Nat} (h : operandBytes? opcode = some n) : n ≤ 4 := by
  unfold operandBytes? at h
  split at h
  · cases h
  · split at h
    · cases h; decide
    · split at h
      · cases h; decide
      · split at h
        · cases h; decide
        · split at h <;> cases h <;> decide

/-- A length is far from the greatest word, because the longest instruction is a switch of `2 ^ 32` entries. -/
theorem length_lt {offset n : Nat} {opcode : UInt8} {after : Bytes} (h : length offset opcode after = .ok n) :
    n < 2 ^ 35 := by
  rcases opcode_of_length_eq_ok h with ⟨ho, hn⟩ | rfl | rfl | rfl
  · have hle := operandBytes?_le ho
    omega
  · obtain ⟨modified, _, _, hm⟩ := length_wide_eq_ok.mp h
    rw [wideLength?_eq] at hm
    split at hm
    · cases hm; decide
    · split at hm <;> cases hm
      decide
  · obtain ⟨pad, _, low, high, _, hp, _, hle, rfl⟩ := length_table_eq_ok.mp h
    obtain ⟨-, hbound⟩ := wordEntries?_ofNat hle
    omega
  · obtain ⟨pad, _, count, _, hp, _, hle, rfl⟩ := length_lookup_eq_ok.mp h
    obtain ⟨-, hbound⟩ := wordPairs_ofNat hle
    omega

end Instruction

/-! ## One step of the cursor -/

namespace CodeCursor

open Instruction

variable {code : Bytes}

/-- A cursor stays in the code. -/
theorem offset_next_le {c : CodeCursor} (h : c.offset ≤ code.length) : (c.next code).2.offset ≤ code.length := by
  unfold next
  split
  · exact h
  · split
    · exact h
    · split
      · exact h
      · split
        · exact h
        · rename_i hlt
          exact Nat.le_of_not_lt hlt

/-- The cursor yields an instruction exactly if one has a length and ends in the code, and it goes on there. -/
theorem next_eq_ok_iff {offset : Nat} {opcode : UInt8} {c : CodeCursor} :
    next code ⟨offset, false⟩ = (some (.ok ⟨offset, opcode⟩), c) ↔ ∃ after n,
      code.drop offset = opcode :: after ∧ length offset opcode after = .ok n ∧ offset + n ≤ code.length ∧
        c = ⟨offset + n, false⟩ := by
  simp only [next, Bool.false_eq_true, if_false]
  constructor
  · intro h
    split at h
    · cases h
    · rename_i found after hd
      split at h
      · cases h
      · rename_i n hl
        split at h
        · cases h
        · cases h
          exact ⟨after, n, hd, hl, by omega, rfl⟩
  · intro h
    obtain ⟨after, n, hd, hl, hle, rfl⟩ := h
    simp only [hd, hl, if_neg (Nat.not_lt.mpr hle)]

end CodeCursor

/-! ## The cursor in words -/

/-- Where the next instruction starts, as a word, and whether one has failed. -/
structure WordCursor where
  offset : UInt64
  failed : Bool

/-- A cursor in words, whose offset has to fit in one. -/
def CodeCursor.toWords (c : CodeCursor) : WordCursor := ⟨.ofNat c.offset, c.failed⟩

namespace WordCursor

open Word Instruction

/-- Before the first instruction. -/
def start : WordCursor := ⟨0, false⟩

/-- The next item, if there is one, and the cursor after it, unless something does not fit in a word. -/
def next? (code : Bytes) (c : WordCursor) : Option (Option (Except WalkFault Instruction) × WordCursor) :=
  if c.failed then some (none, c)
  else match code[c.offset.toNat]? with
    | none => some (none, c)
    | some opcode => do
      match ← wordLength? code c.offset opcode with
      | .error e => some (some (.error ⟨c.offset.toNat, e⟩), ⟨c.offset, true⟩)
      | .ok length =>
        let stop ← add? c.offset length
        if code.length < stop.toNat then some (some (.error ⟨c.offset.toNat, .truncated opcode⟩), ⟨c.offset, true⟩)
        else some (some (.ok ⟨c.offset.toNat, opcode⟩), ⟨stop, false⟩)

/-- The answer to the request after the given number of others, unless something does not fit in a word. -/
def answer? (code : Bytes) : WordCursor → Nat → Option (Option (Except WalkFault Instruction))
  | c, 0 => (c.next? code).map (·.1)
  | c, n + 1 => do
    let (_, after) ← c.next? code
    answer? code after n

variable {code : Bytes}

/-- **One step with words is one step with numbers.** -/
theorem next?_eq (hcode : code.length < 2 ^ 63) {c : CodeCursor} (hc : c.offset ≤ code.length) :
    c.toWords.next? code = some ((c.next code).1, (c.next code).2.toWords) := by
  obtain ⟨offset, failed⟩ := c
  have hsize : UInt64.size = 2 ^ 64 := rfl
  replace hc : offset ≤ code.length := hc
  have ho : (UInt64.ofNat offset).toNat = offset := UInt64.toNat_ofNat_of_lt' (by omega)
  cases failed with
  | true => rfl
  | false =>
    simp only [next?, CodeCursor.next, CodeCursor.toWords, Bool.false_eq_true, if_false, ho]
    cases hd : code.drop offset with
    | nil =>
      have hnone : code[offset]? = none := List.getElem?_eq_none (List.drop_eq_nil_iff.mp hd)
      simp only [hnone]
    | cons opcode after =>
      have hsome : code[offset]? = some opcode := by rw [← List.head?_drop, hd, List.head?_cons]
      simp only [hsome, wordLength?_eq hcode hd, Option.bind_eq_bind, Option.bind_some]
      cases hl : length offset opcode after with
      | error e => rfl
      | ok n =>
        have hn := length_lt hl
        have hstop : (UInt64.ofNat (offset + n)).toNat = offset + n := UInt64.toNat_ofNat_of_lt' (by omega)
        have hsum : add? (.ofNat offset) (.ofNat n) = some (.ofNat (offset + n)) := add?_ofNat (by omega)
        simp only [Except.map, hsum, Option.bind_some, hstop]
        split <;> rfl

/-- **A run with words is a run with numbers.** -/
theorem answer?_eq (hcode : code.length < 2 ^ 63) : ∀ (n : Nat) {c : CodeCursor}, c.offset ≤ code.length →
    answer? code c.toWords n = some (c.answer code n)
  | 0, c, hc => by rw [answer?, next?_eq hcode hc]; rfl
  | n + 1, c, hc => by
    rw [answer?, next?_eq hcode hc, CodeCursor.answer, ← answer?_eq hcode n (CodeCursor.offset_next_le hc)]
    rfl

/-- There is an instruction of an opcode at an offset, and the cursor goes on at a word after it. -/
def Accepts (code : Bytes) (offset : Nat) (opcode : UInt8) (stop : UInt64) : Prop :=
  next? code ⟨.ofNat offset, false⟩ = some (some (.ok ⟨offset, opcode⟩), ⟨stop, false⟩)

/-- An instruction is accepted exactly if one has a length and ends in the code. -/
theorem accepts_iff (hcode : code.length < 2 ^ 63) {offset : Nat} (ho : offset ≤ code.length) {opcode : UInt8}
    {stop : UInt64} : Accepts code offset opcode stop ↔ ∃ after n, code.drop offset = opcode :: after ∧
      length offset opcode after = .ok n ∧ offset + n ≤ code.length ∧ stop.toNat = offset + n := by
  have hsize : UInt64.size = 2 ^ 64 := rfl
  have hstep : next? code ⟨.ofNat offset, false⟩ = _ := next?_eq hcode (c := ⟨offset, false⟩) ho
  cases hnext : CodeCursor.next code ⟨offset, false⟩ with
  | mk item c =>
    simp only [Accepts, hstep, hnext, Option.some.injEq, Prod.mk.injEq]
    constructor
    · intro h
      obtain ⟨rfl, hs⟩ := h
      obtain ⟨after, n, hd, hl, hle, rfl⟩ := CodeCursor.next_eq_ok_iff.mp hnext
      have hlt : offset + n < UInt64.size := by omega
      cases hs
      exact ⟨after, n, hd, hl, hle, UInt64.toNat_ofNat_of_lt' hlt⟩
    · intro h
      obtain ⟨after, n, hd, hl, hle, hs⟩ := h
      cases hnext.symm.trans (CodeCursor.next_eq_ok_iff.mpr ⟨after, n, hd, hl, hle, rfl⟩)
      exact ⟨rfl, by rw [CodeCursor.toWords, ← hs, UInt64.ofNat_toNat]⟩

end WordCursor

/-! ## Switches -/

namespace Instruction

open Word WordCursor

/-- Where a `tableswitch` with some bounds ends, in integers. -/
def tableStop (offset : Nat) (low high : Int32) : Int :=
  offset + (1 + padding offset + 12 + 4 * (high.toInt - low.toInt + 1))

/-- Where a `lookupswitch` with some pairs ends, in integers. -/
def lookupStop (offset : Nat) (pairs : Int32) : Int := offset + (1 + padding offset + 8 + 8 * pairs.toInt)

/-- The head of a `tableswitch` stands at an offset: its opcode, its padding, a default and the bounds. -/
def TableHead (code : Bytes) (offset : Nat) (low high : Int32) : Prop :=
  ∃ pad default rest, pad.length = padding offset ∧
    code.drop offset = 0xaa :: (pad ++ (int default ++ int low ++ int high ++ rest))

/-- The head of a `lookupswitch` stands at an offset: its opcode, its padding, a default and the count. -/
def LookupHead (code : Bytes) (offset : Nat) (pairs : Int32) : Prop :=
  ∃ pad default rest, pad.length = padding offset ∧
    code.drop offset = 0xab :: (pad ++ (int default ++ int pairs ++ rest))

/-- The words for a switch at an offset are the integers that they stand for: its padding, how many entries it has, its
length and where it ends. -/
structure Unwrapped (offset : Nat) (operands entries width : UInt64) (count stop : Int) : Prop where
  entries_eq : (entries.toNat : Int) = count
  stop_eq : ∃ pad length last, wordPadding? (.ofNat offset) = some pad ∧ pad.toNat = padding offset ∧
    wordSwitchLength? pad operands entries width = some length ∧ (length.toNat : Int) = stop - offset ∧
    add? (.ofNat offset) length = some last ∧ (last.toNat : Int) = stop

section Switches

variable {code : Bytes} {offset : Nat} {low high pairs : Int32} {stop : UInt64}

/-- **Nothing wraps**: up to `2 ^ 32` entries of up to eight bytes, at an offset that is half a word at most. -/
theorem unwrapped {operands entries width : Nat} (hoffset : offset < 2 ^ 63) (ho : operands ≤ 12)
    (he : entries ≤ 2 ^ 32) (hw : width ≤ 8) :
    Unwrapped offset (.ofNat operands) (.ofNat entries) (.ofNat width) entries
      (offset + (1 + padding offset + operands + width * entries : Nat)) := by
  have hsize : UInt64.size = 2 ^ 64 := rfl
  have hp := padding_lt offset
  have hle : width * entries ≤ 8 * 2 ^ 32 := Nat.mul_le_mul hw he
  refine ⟨congrArg Nat.cast (UInt64.toNat_ofNat_of_lt' (by omega)), _, _, _, wordPadding?_ofNat (by omega),
    UInt64.toNat_ofNat_of_lt' (by omega), wordSwitchLength?_ofNat hp ho he hw, ?_, add?_ofNat (by omega), ?_⟩
  · rw [UInt64.toNat_ofNat_of_lt' (by omega)]
    omega
  · rw [UInt64.toNat_ofNat_of_lt' (by omega)]
    omega

theorem unwrapped_table (hoffset : offset < 2 ^ 63) (h : low.toInt ≤ high.toInt) : ∃ entries,
    wordEntries? low high = some entries ∧
      Unwrapped offset 12 entries 4 (high.toInt - low.toInt + 1) (tableStop offset low high) := by
  obtain ⟨he, hbound⟩ := wordEntries?_ofNat h
  have hcount : ((high.toInt - low.toInt + 1).toNat : Int) = high.toInt - low.toInt + 1 := by omega
  have hu := @unwrapped offset 12 (high.toInt - low.toInt + 1).toNat 4 hoffset (by decide) hbound (by decide)
  refine ⟨_, he, ?_⟩
  rw [tableStop, ← hcount]
  exact_mod_cast hu

theorem unwrapped_lookup (hoffset : offset < 2 ^ 63) (h : 0 ≤ pairs.toInt) :
    Unwrapped offset 8 (wordPairs pairs) 8 pairs.toInt (lookupStop offset pairs) := by
  obtain ⟨he, hbound⟩ := wordPairs_ofNat h
  have hcount : (pairs.toInt.toNat : Int) = pairs.toInt := by omega
  have hu := @unwrapped offset 8 pairs.toInt.toNat 8 hoffset (by decide) (by omega) (by decide)
  rw [he, lookupStop, ← hcount]
  exact_mod_cast hu

/-- What a switch is read from stands after its padding. -/
theorem drop_operands {opcode : UInt8} {pad operands : Bytes} (hp : pad.length = padding offset)
    (hd : code.drop offset = opcode :: (pad ++ operands)) : code.drop (offset + 1 + padding offset) = operands := by
  rw [← hp, ← List.drop_drop, ← List.drop_drop, hd, List.drop_one, List.tail_cons, List.drop_left]

theorem TableHead.unique {low' high' : Int32} (h : TableHead code offset low high)
    (h' : TableHead code offset low' high') : low = low' ∧ high = high' := by
  obtain ⟨pad, default, rest, hp, hd⟩ := h
  obtain ⟨pad', default', rest', hp', hd'⟩ := h'
  have hread := tableEntries_eq_ok.mpr ⟨default, drop_operands hp hd⟩
  rw [tableEntries_eq_ok.mpr ⟨default', drop_operands hp' hd'⟩] at hread
  cases hread
  exact ⟨rfl, rfl⟩

theorem LookupHead.unique {pairs' : Int32} (h : LookupHead code offset pairs) (h' : LookupHead code offset pairs') :
    pairs = pairs' := by
  obtain ⟨pad, default, rest, hp, hd⟩ := h
  obtain ⟨pad', default', rest', hp', hd'⟩ := h'
  have hread := lookupPairs_eq_ok.mpr ⟨default, drop_operands hp hd⟩
  rw [lookupPairs_eq_ok.mpr ⟨default', drop_operands hp' hd'⟩] at hread
  cases hread
  rfl

/-- A `tableswitch` is accepted exactly if it has a head, bounds in order, and a table that ends in the code. -/
theorem accepts_table_iff (hcode : code.length < 2 ^ 63) (ho : offset ≤ code.length) :
    Accepts code offset 0xaa stop ↔ ∃ low high, TableHead code offset low high ∧ low.toInt ≤ high.toInt ∧
      tableStop offset low high ≤ code.length ∧ (stop.toNat : Int) = tableStop offset low high := by
  rw [accepts_iff hcode ho]
  constructor
  · intro h
    obtain ⟨after, n, hd, hl, hle, hs⟩ := h
    obtain ⟨pad, default, low, high, rest, hp, rfl, hbounds, rfl⟩ := length_table_eq_ok.mp hl
    have hp' : pad.length = padding offset := hp
    refine ⟨low, high, ⟨pad, default, rest, hp', hd⟩, hbounds, ?_, ?_⟩ <;> unfold tableStop <;> omega
  · intro h
    obtain ⟨low, high, ⟨pad, default, rest, hp, hd⟩, hbounds, hle, hs⟩ := h
    refine ⟨_, _, hd, length_table_eq_ok.mpr ⟨pad, default, low, high, rest, hp, rfl, hbounds, rfl⟩, ?_, ?_⟩ <;>
      unfold tableStop at hle hs <;> omega

/-- A `lookupswitch` is accepted exactly if it has a head, a count that is not negative, and pairs that end in the
code. -/
theorem accepts_lookup_iff (hcode : code.length < 2 ^ 63) (ho : offset ≤ code.length) :
    Accepts code offset 0xab stop ↔ ∃ pairs, LookupHead code offset pairs ∧ 0 ≤ pairs.toInt ∧
      lookupStop offset pairs ≤ code.length ∧ (stop.toNat : Int) = lookupStop offset pairs := by
  rw [accepts_iff hcode ho]
  constructor
  · intro h
    obtain ⟨after, n, hd, hl, hle, hs⟩ := h
    obtain ⟨pad, default, pairs, rest, hp, rfl, hcount, rfl⟩ := length_lookup_eq_ok.mp hl
    have hp' : pad.length = padding offset := hp
    refine ⟨pairs, ⟨pad, default, rest, hp', hd⟩, hcount, ?_, ?_⟩ <;> unfold lookupStop <;> omega
  · intro h
    obtain ⟨pairs, ⟨pad, default, rest, hp, hd⟩, hcount, hle, hs⟩ := h
    refine ⟨_, _, hd, length_lookup_eq_ok.mpr ⟨pad, default, pairs, rest, hp, rfl, hcount, rfl⟩, ?_, ?_⟩ <;>
      unfold lookupStop at hle hs <;> omega

theorem exists_accepts_table_iff (hcode : code.length < 2 ^ 63) (ho : offset ≤ code.length)
    (hh : TableHead code offset low high) : (∃ stop, Accepts code offset 0xaa stop) ↔
      low.toInt ≤ high.toInt ∧ tableStop offset low high ≤ code.length := by
  constructor
  · intro h
    obtain ⟨stop, h⟩ := h
    obtain ⟨low', high', hh', hbounds, hle, -⟩ := (accepts_table_iff hcode ho).mp h
    obtain ⟨rfl, rfl⟩ := hh.unique hh'
    exact ⟨hbounds, hle⟩
  · intro h
    obtain ⟨hbounds, hle⟩ := h
    obtain ⟨_, -, hu⟩ := unwrapped_table (Nat.lt_of_le_of_lt ho hcode) hbounds
    obtain ⟨_, _, last, -, -, -, -, -, hlast⟩ := hu.stop_eq
    exact ⟨last, (accepts_table_iff hcode ho).mpr ⟨low, high, hh, hbounds, hle, hlast⟩⟩

theorem exists_accepts_lookup_iff (hcode : code.length < 2 ^ 63) (ho : offset ≤ code.length)
    (hh : LookupHead code offset pairs) : (∃ stop, Accepts code offset 0xab stop) ↔
      0 ≤ pairs.toInt ∧ lookupStop offset pairs ≤ code.length := by
  constructor
  · intro h
    obtain ⟨stop, h⟩ := h
    obtain ⟨pairs', hh', hcount, hle, -⟩ := (accepts_lookup_iff hcode ho).mp h
    obtain rfl := hh.unique hh'
    exact ⟨hcount, hle⟩
  · intro h
    obtain ⟨hcount, hle⟩ := h
    obtain ⟨_, _, last, -, -, -, -, -, hlast⟩ := (unwrapped_lookup (Nat.lt_of_le_of_lt ho hcode) hcount).stop_eq
    exact ⟨last, (accepts_lookup_iff hcode ho).mpr ⟨pairs, hh, hcount, hle, hlast⟩⟩

/-- What is accepted with words is an instruction of the walk, and the only thing that is. -/
theorem exists_accepts_iff_step (hcode : code.length < 2 ^ 63) (ho : offset ≤ code.length) (opcode : UInt8) :
    (∃ stop, Accepts code offset opcode stop) ↔
      ∃ rest, Walk.resume offset 0 (code.drop offset) = .step ⟨offset, opcode⟩ rest := by
  have hsize : UInt64.size = 2 ^ 64 := rfl
  rw [Walk.resume_drop code offset]
  constructor
  · intro h
    obtain ⟨stop, h⟩ := h
    obtain ⟨after, n, hd, hl, hle, -⟩ := (accepts_iff hcode ho).mp h
    exact ⟨_, by simp only [hd, hl, if_neg (Nat.not_lt.mpr hle)]; rfl⟩
  · intro h
    obtain ⟨rest, h⟩ := h
    split at h
    · cases h
    · rename_i found after hd
      split at h
      · cases h
      · rename_i n hl
        split at h
        · cases h
        · rename_i hlt
          cases h
          exact ⟨.ofNat (offset + n), (accepts_iff hcode ho).mpr
            ⟨after, n, hd, hl, by omega, UInt64.toNat_ofNat_of_lt' (by omega)⟩⟩

/-- **Switches never wrap**, in code of less than `2 ^ 63` bytes and at any offset in it. For all bounds in order and for
all counts that are not negative, the number of entries, the length and the end of the switch are in words what they are
in integers. A switch whose head stands there is accepted exactly if its bounds or its count are good and its table ends
in the code; what is accepted as a switch has such a head and ends where its table does; and the decoder goes forwards,
inside the code. What it accepts and all that it ever answers are those of the walk. -/
theorem switch_never_wraps (hcode : code.length < 2 ^ 63) (ho : offset < code.length) :
    (∀ low high : Int32, low.toInt ≤ high.toInt → ∃ entries, wordEntries? low high = some entries ∧
      1 ≤ entries.toNat ∧ entries.toNat ≤ 2 ^ 32 ∧
      Unwrapped offset 12 entries 4 (high.toInt - low.toInt + 1) (tableStop offset low high)) ∧
    (∀ pairs : Int32, 0 ≤ pairs.toInt → (wordPairs pairs).toNat ≤ 2 ^ 31 - 1 ∧
      Unwrapped offset 8 (wordPairs pairs) 8 pairs.toInt (lookupStop offset pairs)) ∧
    (∀ low high : Int32, TableHead code offset low high → ((∃ stop, Accepts code offset 0xaa stop) ↔
      low.toInt ≤ high.toInt ∧ tableStop offset low high ≤ code.length)) ∧
    (∀ pairs : Int32, LookupHead code offset pairs → ((∃ stop, Accepts code offset 0xab stop) ↔
      0 ≤ pairs.toInt ∧ lookupStop offset pairs ≤ code.length)) ∧
    (∀ stop, Accepts code offset 0xaa stop → ∃ low high,
      TableHead code offset low high ∧ (stop.toNat : Int) = tableStop offset low high) ∧
    (∀ stop, Accepts code offset 0xab stop → ∃ pairs,
      LookupHead code offset pairs ∧ (stop.toNat : Int) = lookupStop offset pairs) ∧
    (∀ opcode stop, Accepts code offset opcode stop → offset < stop.toNat ∧ stop.toNat ≤ code.length) ∧
    (∀ opcode, (∃ stop, Accepts code offset opcode stop) ↔
      ∃ rest, Walk.resume offset 0 (code.drop offset) = .step ⟨offset, opcode⟩ rest) ∧
    ∀ n, answer? code start n = some (Walk.ofCode code).items[n]? := by
  have hle : offset ≤ code.length := Nat.le_of_lt ho
  have hoffset : offset < 2 ^ 63 := Nat.lt_trans ho hcode
  refine ⟨fun low high h => ?_, fun pairs h => ?_, fun low high hh => exists_accepts_table_iff hcode hle hh,
    fun pairs hh => exists_accepts_lookup_iff hcode hle hh, fun stop h => ?_, fun stop h => ?_, fun opcode stop h => ?_,
    exists_accepts_iff_step hcode hle, fun n => ?_⟩
  · obtain ⟨entries, he, hu⟩ := unwrapped_table hoffset h
    have hcount := hu.entries_eq
    have hmin := low.le_toInt
    have hmax := high.toInt_lt
    exact ⟨entries, he, by omega, by omega, hu⟩
  · have hu := unwrapped_lookup hoffset h
    have hcount := hu.entries_eq
    have hmax := pairs.toInt_lt
    exact ⟨by omega, hu⟩
  · obtain ⟨low, high, hh, -, -, hs⟩ := (accepts_table_iff hcode hle).mp h
    exact ⟨low, high, hh, hs⟩
  · obtain ⟨pairs, hh, -, -, hs⟩ := (accepts_lookup_iff hcode hle).mp h
    exact ⟨pairs, hh, hs⟩
  · obtain ⟨_, n, _, hl, hn, hs⟩ := (accepts_iff hcode hle).mp h
    have hpos := length_pos hl
    exact ⟨by omega, by omega⟩
  · rw [← CodeCursor.answer_eq]
    exact answer?_eq hcode n (c := .start) (Nat.zero_le _)

end Switches

/-- A `tableswitch` with the widest bounds, and a table of two entries only. -/
def widestSwitch : Bytes :=
  0xaa :: ([0, 0, 0] ++ (int 0 ++ int Int32.minValue ++ int Int32.maxValue ++ [0, 0, 0, 0, 0, 0, 0, 0]))

/-- The widest bounds have `2 ^ 32` entries, so that the switch is refused; one that fits is accepted. -/
theorem widestSwitch_refused :
    widestSwitch.length < 2 ^ 63 ∧ 0 < widestSwitch.length ∧ TableHead widestSwitch 0 Int32.minValue Int32.maxValue ∧
      (∃ entries, wordEntries? Int32.minValue Int32.maxValue = some entries ∧ entries.toNat = 2 ^ 32) ∧
      (¬ ∃ stop, Accepts widestSwitch 0 0xaa stop) ∧ TableHead tableSwitchCode 2 0 1 ∧
      ∃ stop, Accepts tableSwitchCode 2 0xaa stop := by
  have hcode : widestSwitch.length < 2 ^ 63 := by decide
  have ho : 0 < widestSwitch.length := by decide
  have hhead : TableHead widestSwitch 0 Int32.minValue Int32.maxValue := ⟨[0, 0, 0], 0, _, rfl, rfl⟩
  have hfits : TableHead tableSwitchCode 2 0 1 := ⟨[0xb4], 0, _, rfl, rfl⟩
  obtain ⟨entries, he, -, -, hu⟩ := (switch_never_wraps hcode ho).1 Int32.minValue Int32.maxValue (by decide)
  refine ⟨hcode, ho, hhead, ⟨entries, he, ?_⟩, ?_, hfits, ?_⟩
  · have hcount : (entries.toNat : Int) = 2 ^ 32 := hu.entries_eq
    omega
  · intro h
    exact absurd (((switch_never_wraps hcode ho).2.2.1 _ _ hhead).mp h).2 (by decide)
  · exact ((@switch_never_wraps tableSwitchCode 2 (by decide) (by decide)).2.2.1 0 1 hfits).mpr ⟨by decide, by decide⟩

end Instruction
end JvmAccessors
