/-!
# Byte strings as big-endian numbers

A byte string spells a number in base 256, most significant byte first: `Bytes.ofNat width n` writes the number `n` in
`width` bytes and `Bytes.toNat` reads a byte string as a number. Main statements: reading what was written gives the
number modulo `capacity width` (`toNat_ofNat`), and writing what was read gives the bytes back (`ofNat_toNat`).
-/

namespace JvmAccessors

/-- A byte string. -/
abbrev Bytes := List UInt8

namespace Bytes

/-- The number that a byte string spells, most significant byte first. -/
def toNat (b : Bytes) : Nat := b.foldl (fun n x => n * 256 + x.toNat) 0

/-- How many numbers fit in the given number of bytes: a power of 256. -/
def capacity : (width : Nat) → Nat
  | 0 => 1
  | width + 1 => 256 * capacity width

/-- The spelling of `n` in `width` bytes, most significant byte first; higher digits of `n` are dropped. -/
def ofNat : (width n : Nat) → Bytes
  | 0, _ => []
  | width + 1, n => UInt8.ofNat (n / capacity width) :: ofNat width n

/-- The first `n` bytes and the bytes after them, if there are `n`. -/
def split? (n : Nat) (b : Bytes) : Option (Bytes × Bytes) :=
  let (head, rest) := b.splitAt n
  if head.length = n then some (head, rest) else none

/-! ## Numbers -/

/-- A number takes the bytes it is given. -/
@[simp] theorem length_ofNat : ∀ width n, (ofNat width n).length = width
  | 0, _ => rfl
  | width + 1, n => by simp [ofNat, length_ofNat width n]

theorem capacity_pos : ∀ width, 0 < capacity width
  | 0 => Nat.one_pos
  | width + 1 => Nat.mul_pos (by decide) (capacity_pos width)

/-- Reading on from a number `n` shifts it by the bytes that follow. -/
theorem foldl_eq (b : Bytes) (n : Nat) :
    b.foldl (fun n x => n * 256 + x.toNat) n = n * capacity b.length + toNat b := by
  induction b generalizing n with
  | nil => simp [toNat, capacity]
  | cons x b ih =>
    have hx : toNat (x :: b) = x.toNat * capacity b.length + toNat b := by
      rw [toNat, List.foldl_cons, ih]
      simp
    rw [List.foldl_cons, ih, hx, List.length_cons, capacity]
    grind

/-- The first byte of a byte string counts for the power of 256 that the rest leaves it. -/
theorem toNat_cons (x : UInt8) (b : Bytes) : toNat (x :: b) = x.toNat * capacity b.length + toNat b := by
  rw [toNat, List.foldl_cons, foldl_eq]
  simp

/-- A byte string spells a number that fits in its bytes. -/
theorem toNat_lt : ∀ b : Bytes, toNat b < capacity b.length
  | [] => by simp [toNat, capacity]
  | x :: b => by
    have hx := x.toNat_lt
    have hb := toNat_lt b
    rw [toNat_cons, List.length_cons, capacity]
    calc x.toNat * capacity b.length + toNat b
        < x.toNat * capacity b.length + capacity b.length := by omega
      _ = (x.toNat + 1) * capacity b.length := by grind
      _ ≤ 256 * capacity b.length := Nat.mul_le_mul_right _ (by omega)

/-- Reading what was written gives the number, less the digits that were dropped. -/
theorem toNat_ofNat : ∀ width n, toNat (ofNat width n) = n % capacity width
  | 0, n => by simp [ofNat, toNat, capacity, Nat.mod_one]
  | width + 1, n => by
    rw [ofNat, toNat_cons, length_ofNat, toNat_ofNat width n, capacity, Nat.mul_comm 256, Nat.mod_mul,
      UInt8.toNat_ofNat']
    grind

/-- Writing what was read gives the bytes back, whatever stands in the digits above. -/
theorem ofNat_toNat_add : ∀ (b : Bytes) (k : Nat), ofNat b.length (k * capacity b.length + toNat b) = b
  | [], _ => rfl
  | x :: b, k => by
    have hb := toNat_lt b
    have hsum : k * capacity (b.length + 1) + toNat (x :: b) = (k * 256 + x.toNat) * capacity b.length + toNat b := by
      rw [toNat_cons, capacity]
      grind
    rw [List.length_cons, hsum, ofNat, ofNat_toNat_add b]
    congr 1
    apply UInt8.toNat_inj.mp
    rw [UInt8.toNat_ofNat', Nat.mul_comm, Nat.mul_add_div (capacity_pos b.length), Nat.div_eq_of_lt hb]
    have hx := x.toNat_lt
    omega

/-- Writing what was read gives the bytes back. -/
theorem ofNat_toNat (b : Bytes) : ofNat b.length (toNat b) = b := by
  simpa using ofNat_toNat_add b 0

/-! ## Splitting -/

/-- A byte string splits after `n` bytes exactly when it has that many. -/
theorem split?_eq (n : Nat) (b : Bytes) :
    split? n b = if n ≤ b.length then some (b.take n, b.drop n) else none := by
  simp only [split?, List.splitAt_eq, List.length_take]
  split <;> split <;> first | rfl | omega

/-- A part of `n` bytes in front is split off. -/
theorem split?_append (a b : Bytes) : split? a.length (a ++ b) = some (a, b) := by
  simp [split?_eq]

/-- What is split off and what is left make up the byte string. -/
theorem eq_append_of_split? {n : Nat} {b head rest : Bytes} (h : split? n b = some (head, rest)) :
    head.length = n ∧ b = head ++ rest := by
  rw [split?_eq] at h
  split at h
  · simp only [Option.some.injEq, Prod.mk.injEq] at h
    obtain ⟨rfl, rfl⟩ := h
    exact ⟨by simp; omega, (List.take_append_drop n b).symm⟩
  · simp at h

end Bytes
end JvmAccessors
