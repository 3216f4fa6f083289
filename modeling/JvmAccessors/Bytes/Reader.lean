import JvmAccessors.Bytes.BigEndian

/-!
# Readers

A reader takes a value off the front of a byte string. A reading of a big-endian word or of a block fails when too few
bytes are left, and a failed reading leaves nothing behind: the byte string stays with the caller. Main statements: a
word is read exactly when its bytes are there (`word_ofNat_append`, `word_eq_ok`), and so is a block (`block_append`,
`block_eq_ok`).
-/

namespace JvmAccessors

/-- Why a reading found too few bytes. -/
inductive Shortage
  /-- A word does not fit in what is left. -/
  | word
  /-- A block of `wanted` bytes does not fit in the `had` bytes that are left. -/
  | block (wanted had : Nat)
  deriving DecidableEq, Repr

/-- The wording of a shortage. -/
def Shortage.message : Shortage → String
  | .word => "out of bytes"
  | .block wanted had => s!"out of bytes (wanted {wanted}, had {had})"

/-- A reading off the front of a byte string: a value and the bytes after it, or a cause of failure. -/
abbrev Reader (ε : Type) := StateT Bytes (Except ε)

namespace Reader

/-- The same reading with its causes of failure renamed. -/
def mapError {ε ε' α : Type} (f : ε → ε') (p : Reader ε α) : Reader ε' α := fun b => (p b).mapError f

/-- The number that the next `width` bytes spell. -/
def word (width : Nat) : Reader Shortage Nat := fun b =>
  match b.split? width with
  | some (head, rest) => .ok (head.toNat, rest)
  | none => .error .word

/-- The next `n` bytes. -/
def block (n : Nat) : Reader Shortage Bytes := fun b =>
  match b.split? n with
  | some (head, rest) => .ok (head, rest)
  | none => .error (.block n b.length)

/-- An unsigned byte. -/
def u8 : Reader Shortage UInt8 := UInt8.ofNat <$> word 1

/-- An unsigned word of two bytes. -/
def u16 : Reader Shortage UInt16 := UInt16.ofNat <$> word 2

/-- An unsigned word of four bytes. -/
def u32 : Reader Shortage UInt32 := UInt32.ofNat <$> word 4

/-- An unsigned word of eight bytes. -/
def u64 : Reader Shortage UInt64 := UInt64.ofNat <$> word 8

/-- The values of `n` readings in a row. -/
def times {ε α : Type} : (n : Nat) → Reader ε α → Reader ε (List α)
  | 0, _ => pure []
  | n + 1, p => do
    let a ← p
    return a :: (← times n p)

/-! ## Words and blocks -/

/-- A number that fits in its bytes is read back from them. -/
theorem word_ofNat_append {width n : Nat} (h : n < Bytes.capacity width) (rest : Bytes) :
    word width (Bytes.ofNat width n ++ rest) = .ok (n, rest) := by
  have hs := Bytes.split?_append (Bytes.ofNat width n) rest
  rw [Bytes.length_ofNat] at hs
  rw [word, hs]
  simp only [Bytes.toNat_ofNat, Nat.mod_eq_of_lt h]

/-- A word that was read is spelled by the bytes that it was read from. -/
theorem word_eq_ok {width n : Nat} {b rest : Bytes} (h : word width b = .ok (n, rest)) :
    n < Bytes.capacity width ∧ b = Bytes.ofNat width n ++ rest := by
  unfold word at h
  split at h
  · rename_i head rest' hs
    obtain ⟨hl, rfl⟩ := Bytes.eq_append_of_split? hs
    simp only [Except.ok.injEq, Prod.mk.injEq] at h
    obtain ⟨rfl, rfl⟩ := h
    subst hl
    exact ⟨Bytes.toNat_lt head, by rw [Bytes.ofNat_toNat]⟩
  · simp at h

/-- A block is read back from a byte string that starts with it. -/
theorem block_append (a rest : Bytes) : block a.length (a ++ rest) = .ok (a, rest) := by
  rw [block, Bytes.split?_append]

/-- A block that was read stands in front of what is left, and has the length that was asked for. -/
theorem block_eq_ok {n : Nat} {b a rest : Bytes} (h : block n b = .ok (a, rest)) :
    a.length = n ∧ b = a ++ rest := by
  unfold block at h
  split at h
  · rename_i head rest' hs
    simp only [Except.ok.injEq, Prod.mk.injEq] at h
    obtain ⟨rfl, rfl⟩ := h
    exact Bytes.eq_append_of_split? hs
  · simp at h

end Reader
end JvmAccessors
