import JvmAccessors.Proofs.ClassFile.Entries
import JvmAccessors.Proofs.ClassFile.Lookups

/-!
# The slots of a pool

A pool is read in rounds: as long as the number of the next slot is below the declared count, a constant is read into
that slot, and a `long` or a `double` leaves the slot after it reserved (`PoolCursor.enter`, `PoolCursor.rounds`). The
rounds read what `Constant.readInto` reads (`PoolCursor.rounds_eq`). A round keeps the next slot right behind the pool
(`PoolCursor.Behind.enter`), so every round does (`PoolCursor.behind_of_mem_stages`).

So each constant stands in the slot that the constants before it lead up to, a slot is reserved exactly if the one before
it holds a `long` or a `double`, and the pool has the declared slots, and one more if such a constant starts in the last
of them (`Pool.slots_of_reading`).
-/

namespace JvmAccessors

open Reader

/-! ## Rounds -/

/-- How far the reading of a pool has come: the number of the next slot, and the pool so far. -/
structure PoolCursor where
  next : Nat
  pool : Pool

namespace PoolCursor

/-- Before the first round; slots are numbered from one. -/
def start : PoolCursor := ⟨1, .empty⟩

/-- One round: a constant goes into the next slot, and after a `long` or a `double` one more slot is passed over. -/
def enter (s : PoolCursor) (k : Constant) : PoolCursor :=
  if k.isWide then ⟨s.next + 1 + 1, (s.pool.insert (.constant k)).insert .reserved⟩
  else ⟨s.next + 1, s.pool.insert (.constant k)⟩

/-- A round goes on by the slots that its constant takes. -/
theorem next_enter (s : PoolCursor) (k : Constant) : (s.enter k).next = s.next + k.slots.length := by
  rw [enter, Constant.length_slots]
  split <;> rfl

/-- A round puts the slots of its constant at the end of the pool. -/
theorem slots_enter (s : PoolCursor) (k : Constant) :
    (s.enter k).pool.slots.toList = s.pool.slots.toList ++ k.slots := by
  rw [enter, Constant.slots]
  split <;> simp [Pool.insert]

/-- Reads constants as long as the next slot is below the declared count. What is answered is how far the reading had
come before each of them and at the end. -/
def rounds (count : Nat) (s : PoolCursor) : Reader ParseError (List PoolCursor) :=
  if s.next < count then do
    let k ← Constant.read
    return s :: (← rounds count (s.enter k))
  else return [s]
termination_by count - s.next
decreasing_by
  rw [next_enter]
  have hk := Constant.slots_pos k
  omega

/-- How far the reading has come before each of some constants and after the last. -/
def stages : PoolCursor → List Constant → List PoolCursor
  | s, [] => [s]
  | s, k :: ks => s :: stages (s.enter k) ks

/-- **The rounds read constants into the free slots**, and fail where that fails. -/
theorem rounds_eq (count : Nat) (s : PoolCursor) :
    rounds count s = s.stages <$> Constant.readInto (count - s.next) := by
  rw [rounds]
  split
  · rename_i hlt
    obtain ⟨free, hfree⟩ : ∃ free, count - s.next = free + 1 := ⟨count - s.next - 1, by omega⟩
    rw [hfree, Constant.readInto_succ, map_bind]
    refine bind_congr fun k => ?_
    have hnext : count - (s.enter k).next = free + 1 - k.slots.length := by
      rw [next_enter]
      omega
    rw [rounds_eq count (s.enter k), hnext]
    simp only [map_eq_pure_bind, bind_assoc, pure_bind, stages]
  · rename_i hlt
    have hfree : count - s.next = 0 := by omega
    rw [hfree, Constant.readInto, map_pure, stages]
termination_by count - s.next
decreasing_by
  rw [next_enter]
  have hk := Constant.slots_pos k
  omega

/-! ## What the rounds keep -/

/-- The next slot is the first behind the pool. -/
def Behind (s : PoolCursor) : Prop := s.next = s.pool.size + 1

theorem behind_start : start.Behind := rfl

/-- A round keeps the next slot right behind the pool. -/
theorem Behind.enter {s : PoolCursor} (h : s.Behind) (k : Constant) : (s.enter k).Behind := by
  have hs := congrArg List.length (slots_enter s k)
  rw [List.length_append, Array.length_toList, Array.length_toList] at hs
  rw [Behind, Pool.size] at h ⊢
  rw [next_enter, hs, h]
  omega

/-- So do all rounds. -/
theorem behind_of_mem_stages : ∀ {ks : List Constant} {s t : PoolCursor}, s.Behind → t ∈ s.stages ks → t.Behind
  | [], _, _, h, ht => List.mem_singleton.mp ht ▸ h
  | k :: _, _, _, h, ht => by
    rcases List.mem_cons.mp ht with rfl | ht
    · exact h
    · exact behind_of_mem_stages (h.enter k) ht

/-- The rounds end with all constants in the pool. -/
theorem getLast?_stages : ∀ (ks : List Constant) (s : PoolCursor), ∃ last, (s.stages ks).getLast? = some last ∧
    last.next = s.next + Constant.slotCount ks ∧
    last.pool.slots.toList = s.pool.slots.toList ++ ks.flatMap Constant.slots
  | [], s => ⟨s, rfl, rfl, by simp⟩
  | k :: ks, s => by
    obtain ⟨last, hl, hn, hp⟩ := getLast?_stages ks (s.enter k)
    refine ⟨last, ?_, ?_, ?_⟩
    · rw [stages, List.getLast?_cons, hl, Option.getD_some]
    · rw [hn, next_enter, Constant.slotCount_cons, Nat.add_assoc]
    · rw [hp, slots_enter, List.flatMap_cons, List.append_assoc]

/-- No round goes back. -/
theorem next_le_of_mem_stages : ∀ {ks : List Constant} {s t : PoolCursor}, t ∈ s.stages ks →
    t.next ≤ s.next + Constant.slotCount ks
  | [], _, _, ht => by
    rw [List.mem_singleton.mp ht]
    exact Nat.le_add_right _ _
  | k :: ks, s, t, ht => by
    rcases List.mem_cons.mp ht with rfl | ht
    · exact Nat.le_add_right _ _
    · have h := next_le_of_mem_stages ht
      rw [next_enter] at h
      rw [Constant.slotCount_cons]
      omega

end PoolCursor

/-! ## Where constants stand -/

namespace Constant

theorem isWide_iff {k : Constant} : k.isWide = true ↔ k.tag = .long ∨ k.tag = .double := by
  cases k <;> simp [isWide, tag]

/-- The number of the slot after some constants: a `long` or a `double` takes two slots and any other constant one, and
slots are numbered from one. -/
def slotAfter : List Constant → Nat
  | [] => 1
  | k :: ks => slotAfter ks + if k.tag = .long ∨ k.tag = .double then 2 else 1

theorem slotAfter_eq : ∀ ks : List Constant, slotAfter ks = 1 + slotCount ks
  | [] => rfl
  | k :: ks => by
    rw [slotAfter, slotAfter_eq ks, slotCount_cons, length_slots]
    simp only [isWide_iff]
    omega

/-- Numbers in front move the slots of the constants after them. -/
theorem slotAfter_replicate_append (n : Nat) (bits : UInt32) (ks : List Constant) :
    slotAfter (List.replicate n (.integer bits) ++ ks) = slotAfter ks + n := by
  induction n with
  | zero => rfl
  | succ n ih =>
    rw [List.replicate_succ, List.cons_append, slotAfter, ih, if_neg (by simp [tag])]
    omega

/-- **The last of some constants straddles the declared count**: it is a `long` or a `double` and starts in the last slot
below the count, so that its second slot is one more. -/
def Straddles (count : Nat) (ks : List Constant) : Prop :=
  ∃ before k, ks = before ++ [k] ∧ (k.tag = .long ∨ k.tag = .double) ∧ slotAfter before + 1 = count

theorem slotCount_append_singleton (ks : List Constant) (k : Constant) :
    slotCount (ks ++ [k]) = slotCount ks + k.slots.length := by
  simp [slotCount]

theorem slotCount_of_straddles {count : Nat} {ks : List Constant} (h : Straddles count ks) : slotCount ks = count := by
  obtain ⟨before, k, rfl, hk, hc⟩ := h
  rw [slotAfter_eq] at hc
  rw [slotCount_append_singleton, length_slots, if_pos (isWide_iff.mpr hk)]
  omega

/-- Constants that fill the declared slots take no other, unless the last one straddles. -/
theorem slotCount_of_fills {count : Nat} {ks : List Constant} (hf : Fills (count - 1) ks) (h : ¬ Straddles count ks) :
    slotCount ks = count - 1 := by
  obtain ⟨hstarts, hfilled⟩ := hf
  rcases List.eq_nil_or_concat ks with rfl | ⟨before, k, rfl⟩
  · exact Nat.le_antisymm (Nat.zero_le _) hfilled
  · rw [List.concat_eq_append] at *
    have hlt := hstarts before k [] rfl
    rw [slotCount_append_singleton, length_slots] at hfilled ⊢
    split at hfilled
    · rename_i hk
      -- a `long` or a `double` that does not straddle has both of its slots below the count
      have hne : slotAfter before + 1 ≠ count := fun hc => h ⟨before, k, rfl, isWide_iff.mp hk, hc⟩
      rw [slotAfter_eq] at hne
      rw [if_pos hk]
      omega
    · rename_i hk
      rw [if_neg hk]
      omega

/-- The slot after some constants holds the next one. -/
theorem getElem?_slots (before : List Constant) (k : Constant) (after : List Constant) :
    ((before ++ k :: after).flatMap slots)[slotCount before]? = some (.constant k) := by
  rw [List.flatMap_append, List.flatMap_cons, slotCount, List.getElem?_append_right (Nat.le_refl _), Nat.sub_self, slots]
  split <;> rfl

theorem getElem?_slots_zero_ne (ks : List Constant) : (ks.flatMap slots)[0]? ≠ some .reserved := by
  cases ks with
  | nil => simp
  | cons k ks =>
    rw [List.flatMap_cons, slots]
    split <;> simp

/-- A slot is reserved exactly if the one before it is the first of a `long` or a `double`. -/
theorem getElem?_slots_succ_eq_reserved : ∀ (ks : List Constant) (n : Nat),
    (ks.flatMap slots)[n + 1]? = some .reserved ↔ ∃ k, (ks.flatMap slots)[n]? = some (.constant k) ∧ k.isWide = true
  | [], n => by simp
  | k :: ks, n => by
    have h0 := getElem?_slots_zero_ne ks
    rw [List.flatMap_cons, slots]
    by_cases hk : k.isWide = true
    · match n with
      | 0 => simp [hk]
      | 1 => simp [hk, h0]
      | n + 2 => simp [hk, getElem?_slots_succ_eq_reserved ks n]
    · match n with
      | 0 => simp [hk, h0]
      | n + 1 => simp [hk, getElem?_slots_succ_eq_reserved ks n]

end Constant

/-! ## The pool -/

namespace Pool

theorem toList_ofConstants (ks : List Constant) : (ofConstants ks).slots.toList = ks.flatMap Constant.slots := rfl

theorem size_ofConstants (ks : List Constant) : (ofConstants ks).size = Constant.slotCount ks := rfl

/-- What is at a number, counted from one, is what a row of slots has one place before. -/
theorem get_ofConstants_eq_ok {ks : List Constant} {i : Index} {n : Nat} (hi : i.toNat = n + 1) {s : Slot} :
    (ofConstants ks).get i = .ok s ↔ (ks.flatMap Constant.slots)[n]? = some s := by
  have h0 : i ≠ 0 := by
    rintro rfl
    cases hi
  rw [get_eq_ok_iff, hi, Nat.add_sub_cancel, ← Array.getElem?_toList, toList_ofConstants]
  simp only [ne_eq, h0, not_false_eq_true, true_and]

theorem exists_index {n : Nat} (h : n < 65536) : ∃ i : Index, i.toNat = n :=
  ⟨.ofNat n, UInt16.toNat_ofNat_of_lt' h⟩

theorem get_slotAfter {ks before after : List Constant} {k : Constant} (h : ks = before ++ k :: after)
    (hlt : Constant.slotAfter before < 65536) :
    ∃ i : Index, i.toNat = Constant.slotAfter before ∧ (ofConstants ks).get i = .ok (.constant k) := by
  obtain ⟨i, hi⟩ := exists_index hlt
  refine ⟨i, hi, (get_ofConstants_eq_ok (n := Constant.slotCount before) ?_).mpr ?_⟩
  · rw [hi, Constant.slotAfter_eq, Nat.add_comm]
  · rw [h]
    exact Constant.getElem?_slots before k after

theorem get_eq_reserved_iff {ks : List Constant} {i : Index} : (ofConstants ks).get i = .ok .reserved ↔
    ∃ (j : Index) (k : Constant), j.toNat + 1 = i.toNat ∧ (ofConstants ks).get j = .ok (.constant k) ∧
      (k.tag = .long ∨ k.tag = .double) := by
  simp only [← Constant.isWide_iff]
  match hi : i.toNat with
  | 0 =>
    have h0 : i = 0 := UInt16.toNat_inj.mp hi
    simp [get, h0]
  | 1 =>
    rw [get_ofConstants_eq_ok hi]
    refine ⟨fun h => absurd h (Constant.getElem?_slots_zero_ne ks), ?_⟩
    rintro ⟨j, k, hj, hk, -⟩
    have hj : j = 0 := UInt16.toNat_inj.mp (Nat.succ.inj hj)
    exact absurd hj (get_eq_ok_iff.mp hk).1
  | n + 2 =>
    rw [get_ofConstants_eq_ok hi, Constant.getElem?_slots_succ_eq_reserved]
    have hlt := i.toNat_lt
    constructor
    · rintro ⟨k, hk, hw⟩
      obtain ⟨j, hj⟩ := exists_index (n := n + 1) (by omega)
      exact ⟨j, k, by rw [hj], (get_ofConstants_eq_ok hj).mpr hk, hw⟩
    · rintro ⟨j, k, hj, hk, hw⟩
      exact ⟨k, (get_ofConstants_eq_ok (Nat.succ.inj hj)).mp hk, hw⟩

/-- The numbers of the slots fit in two bytes unless the last constant straddles the greatest count. -/
theorem next_le_iff {count : Nat} {ks : List Constant} (hlt : count < 65536) (hf : Constant.Fills (count - 1) ks) :
    (∀ s ∈ PoolCursor.start.stages ks, s.next ≤ 65535) ↔ ¬ (count = 65535 ∧ Constant.Straddles count ks) := by
  constructor
  · rintro hle ⟨hmax, hs⟩
    obtain ⟨last, hl, hn, -⟩ := PoolCursor.getLast?_stages ks .start
    have hn : last.next = 1 + Constant.slotCount ks := hn
    have hlast := hle last (List.mem_of_getLast? hl)
    rw [hn, Constant.slotCount_of_straddles hs] at hlast
    omega
  · intro hne s hs
    have hs : s.next ≤ 1 + Constant.slotCount ks := PoolCursor.next_le_of_mem_stages hs
    by_cases h : Constant.Straddles count ks
    · have hmax : count ≠ 65535 := fun hmax => hne ⟨hmax, h⟩
      rw [Constant.slotCount_of_straddles h] at hs
      omega
    · rw [Constant.slotCount_of_fills hf h] at hs
      omega

/-- **Where the constants of a pool stand**, for a pool that is read after its declared count. Each constant is at the
number that the constants before it lead up to; a number is reserved exactly if the one before it is that of a `long` or
a `double`; before each round, and at the end, the next slot is right behind the pool, and its number fits in two bytes
unless the last constant straddles the greatest count; and the pool has the declared slots, and one more exactly if its
last constant straddles the count. -/
theorem slots_of_reading {b mid rest : Bytes} {count : UInt16} {ks : List Constant} (hc : u16 b = .ok (count, mid))
    (hr : Constant.readInto (count.toNat - 1) mid = .ok (ks, rest)) :
    b = Layout.u16 count ++ (ks.flatMap Constant.layout ++ rest) ∧
    (∀ before k after, ks = before ++ k :: after →
      ∃ i : Index, i.toNat = Constant.slotAfter before ∧ (ofConstants ks).get i = .ok (.constant k)) ∧
    (∀ i : Index, (ofConstants ks).get i = .ok .reserved ↔ ∃ (j : Index) (k : Constant), j.toNat + 1 = i.toNat ∧
      (ofConstants ks).get j = .ok (.constant k) ∧ (k.tag = .long ∨ k.tag = .double)) ∧
    (∃ cursors last, PoolCursor.rounds count.toNat .start mid = .ok (cursors, rest) ∧
      cursors.getLast? = some last ∧ last.pool = ofConstants ks ∧ (∀ s ∈ cursors, s.next = s.pool.size + 1) ∧
      ((∀ s ∈ cursors, s.next ≤ 65535) ↔ ¬ (count.toNat = 65535 ∧ Constant.Straddles count.toNat ks))) ∧
    (Constant.Straddles count.toNat ks → (ofConstants ks).size = max count.toNat 1 - 1 + 1) ∧
    (¬ Constant.Straddles count.toNat ks → (ofConstants ks).size = max count.toNat 1 - 1) := by
  obtain ⟨⟨hf, -⟩, hb⟩ := (Constant.exact_readInto _ _ _ _).mp hr
  have hlt := count.toNat_lt
  refine ⟨by rw [u16_eq_ok.mp hc, hb], fun before k after h => get_slotAfter h ?_, fun i => get_eq_reserved_iff, ?_,
    fun h => ?_, fun h => ?_⟩
  · have hs := hf.1 before k after h
    rw [Constant.slotAfter_eq]
    omega
  · obtain ⟨last, hl, -, hp⟩ := PoolCursor.getLast?_stages ks .start
    refine ⟨PoolCursor.start.stages ks, last, ?_, hl, ?_, ?_, next_le_iff hlt hf⟩
    · rw [PoolCursor.rounds_eq, map_eq_ok]
      exact ⟨ks, hr, rfl⟩
    · exact congrArg Pool.mk (Array.toList_inj.mp (hp.trans (List.nil_append _)))
    · exact fun s hs => PoolCursor.behind_of_mem_stages PoolCursor.behind_start hs
  · have hpos : 1 < count.toNat := by
      obtain ⟨before, k, -, -, hs⟩ := h
      rw [Constant.slotAfter_eq] at hs
      omega
    rw [size_ofConstants, Constant.slotCount_of_straddles h]
    omega
  · rw [size_ofConstants, Constant.slotCount_of_fills hf h]
    omega

/-- A `long`, a text and a `double` for five declared numbers, of which the last is that of the `double`, and one byte
more. -/
def straddlingBytes : Bytes :=
  [0, 5] ++ [5, 0, 0, 0, 0, 0, 0, 0, 1] ++ [1, 0, 1, 0x4f] ++ [6, 0, 0, 0, 0, 0, 0, 0, 2] ++ [0xff]

/-- The `double` stands at number 4, the number after the `long` is reserved, and the pool has one slot more than was
declared. -/
theorem slots_of_straddlingBytes :
    u16 straddlingBytes = .ok (5, straddlingBytes.drop 2) ∧
    Constant.readInto 4 (straddlingBytes.drop 2) = .ok ([.long 1, .utf8 [0x4f], .double 2], [0xff]) ∧
    (∃ i : Index, i.toNat = 4 ∧ (ofConstants [.long 1, .utf8 [0x4f], .double 2]).get i = .ok (.constant (.double 2))) ∧
    (ofConstants [.long 1, .utf8 [0x4f], .double 2]).get 2 = .ok .reserved ∧
    (ofConstants [.long 1, .utf8 [0x4f], .double 2]).size = 5 := by
  have hc : u16 straddlingBytes = .ok (5, straddlingBytes.drop 2) := by rfl
  have hr : Constant.readInto 4 (straddlingBytes.drop 2) = .ok ([.long 1, .utf8 [0x4f], .double 2], [0xff]) := by rfl
  obtain ⟨-, hget, hreserved, -, hsize, -⟩ := slots_of_reading hc hr
  refine ⟨hc, hr, ?_, (hreserved 2).mpr ⟨1, .long 1, rfl, rfl, .inl rfl⟩, hsize ?_⟩
  · exact hget [.long 1, .utf8 [0x4f]] (.double 2) [] rfl
  · exact ⟨[.long 1, .utf8 [0x4f]], .double 2, rfl, .inr rfl, rfl⟩

end Pool
end JvmAccessors
