import JvmAccessors.Bytes.Request
import JvmAccessors.Proofs.Bytes.Exact

/-!
# Typed reads conserve bytes

A `Buffer` has getters that are sure to work only while enough bytes are left; a safe read asks for the number of bytes
first (`Buffer.read`). Over any buffer whose getters are big-endian and advance by what they read (`Buffer.Lawful`), safe
reads are served as from a byte string (`Buffer.Lawful.serve_eq`). The bytes that a request takes are the spelling of the
value that it answers (`Request.bytes_decode`), so nothing is lost along a row of reads, failures included. Main
statement: the values that were read, spelled again, and what is left make up the buffer (`Buffer.Lawful.conserves`).
-/

namespace JvmAccessors

/-! ## One request -/

namespace Reader

variable {b : Bytes}

theorem word_of_le {width : Nat} (h : width ≤ b.length) : word width b = .ok (Bytes.toNat (b.take width), b.drop width) := by
  rw [word, Bytes.split?_eq, if_pos h]

theorem word_of_lt {width : Nat} (h : b.length < width) : word width b = .error .word := by
  rw [word, Bytes.split?_eq, if_neg (Nat.not_le.mpr h)]

theorem block_of_le {n : Nat} (h : n ≤ b.length) : block n b = .ok (b.take n, b.drop n) := by
  rw [block, Bytes.split?_eq, if_pos h]

theorem block_of_lt {n : Nat} (h : b.length < n) : block n b = .error (.block n b.length) := by
  rw [block, Bytes.split?_eq, if_neg (Nat.not_le.mpr h)]

section Map

variable {ε α β : Type} {p : Reader ε α} {f : α → β}

theorem map_of_ok {a : α} {rest : Bytes} (h : p b = .ok (a, rest)) : (f <$> p) b = .ok (f a, rest) :=
  map_eq_ok.mpr ⟨a, h, rfl⟩

theorem map_of_error {e : ε} (h : p b = .error e) : (f <$> p) b = .error e := by
  show Except.map _ (p b) = _
  rw [h]
  rfl

end Map

end Reader

namespace Request

open Reader

/-- The value that a request answers from the bytes that it takes, most significant byte first. -/
def decode : Request → Bytes → Value
  | .u8, b => .u8 (.ofNat b.toNat)
  | .u16, b => .u16 (.ofNat b.toNat)
  | .u32, b => .u32 (.ofNat b.toNat)
  | .u64, b => .u64 (.ofNat b.toNat)
  | .i8, b => .i8 (UInt8.ofNat b.toNat).toInt8
  | .i16, b => .i16 (UInt16.ofNat b.toNat).toInt16
  | .i32, b => .i32 (UInt32.ofNat b.toNat).toInt32
  | .i64, b => .i64 (UInt64.ofNat b.toNat).toInt64
  | .f32, b => .f32 (.ofNat b.toNat)
  | .f64, b => .f64 (.ofNat b.toNat)
  | .block _, b => .block b

/-- Why a request fails when too few bytes are left. -/
def shortage : Request → (had : Nat) → Shortage
  | .block length, had => .block length had
  | _, _ => .word

/-- The bytes that a request takes are the spelling of the value that it answers. -/
theorem bytes_decode {r : Request} {b : Bytes} (h : b.length = r.width) : (r.decode b).bytes = b := by
  have hword {ω : Type} {of : Nat → ω} {val : ω → Nat} (hw : IsWord r.width of val) :
      Bytes.ofNat r.width (val (of b.toNat)) = b := by
    rw [hw.val_of _ (h ▸ Bytes.toNat_lt b), ← h, Bytes.ofNat_toNat]
  cases r with
  | u8 => exact hword isWord_u8
  | u16 => exact hword isWord_u16
  | u32 => exact hword isWord_u32
  | u64 => exact hword isWord_u64
  | i8 => exact hword isWord_u8
  | i16 => exact hword isWord_u16
  | i32 => exact hword isWord_u32
  | i64 => exact hword isWord_u64
  | f32 => exact hword isWord_u32
  | f64 => exact hword isWord_u64
  | block length => rfl

/-- A request is served if its bytes are there. -/
theorem serve_of_le {r : Request} {b : Bytes} (h : r.width ≤ b.length) :
    r.serve b = ⟨.ok (r.decode (b.take r.width)), b.drop r.width⟩ := by
  have hread : r.reader b = .ok (r.decode (b.take r.width), b.drop r.width) := by
    cases r with
    | block length => exact map_of_ok (block_of_le h)
    | _ => exact map_of_ok (map_of_ok (word_of_le h))
  rw [serve, hread]

/-- A request that finds too few bytes takes none. -/
theorem serve_of_lt {r : Request} {b : Bytes} (h : b.length < r.width) :
    r.serve b = ⟨.error (r.shortage b.length), b⟩ := by
  have hread : r.reader b = .error (r.shortage b.length) := by
    cases r with
    | block length => exact map_of_error (block_of_lt h)
    | _ => exact map_of_error (map_of_error (word_of_lt h))
  rw [serve, hread]

end Request

/-! ## Buffers -/

/-- A buffer of some kind: how many bytes are left in it, and its getters, which answer a value and the buffer after it.
What a getter does when too few bytes are left is not said. -/
structure Buffer (σ : Type) where
  remaining : σ → Nat
  get : Request → σ → Value × σ

namespace Buffer

variable {σ : Type}

/-- A safe read: a getter is used only after its bytes were asked for. -/
def read (B : Buffer σ) (r : Request) (s : σ) : Except Shortage Value × σ :=
  match r with
  | .block length =>
    if B.remaining s < length then (.error (.block length (B.remaining s)), s)
    else
      let (value, s) := B.get (.block length) s
      (.ok value, s)
  | r =>
    if r.width ≤ B.remaining s then
      let (value, s) := B.get r s
      (.ok value, s)
    else (.error .word, s)

/-- Safe reads in a row, each from the buffer that the one before it left: what came of them, and the buffer after the
last. -/
def readAll (B : Buffer σ) : List Request → σ → List (Except Shortage Value) × σ
  | [], s => ([], s)
  | r :: requests, s =>
    let (outcome, s) := B.read r s
    let (outcomes, s) := B.readAll requests s
    (outcome :: outcomes, s)

/-- The bytes of the values among the outcomes of reads. -/
def spelled (outcomes : List (Except Shortage Value)) : Bytes :=
  (outcomes.filterMap Except.toOption).flatMap Value.bytes

/-- A buffer holds bytes, and its getters take values off their front while they are there. -/
structure Lawful (B : Buffer σ) (content : σ → Bytes) : Prop where
  remaining : ∀ s, B.remaining s = (content s).length
  value : ∀ r s, r.width ≤ (content s).length → (B.get r s).1 = r.decode ((content s).take r.width)
  rest : ∀ r s, r.width ≤ (content s).length → content (B.get r s).2 = (content s).drop r.width

theorem readAll_cons (B : Buffer σ) (r : Request) (requests : List Request) (s : σ) :
    B.readAll (r :: requests) s = ((B.read r s).1 :: (B.readAll requests (B.read r s).2).1,
      (B.readAll requests (B.read r s).2).2) := rfl

/-- A row of reads has an outcome for each. -/
theorem length_readAll (B : Buffer σ) (requests : List Request) (s : σ) :
    (B.readAll requests s).1.length = requests.length := by
  induction requests generalizing s with
  | nil => rfl
  | cons r requests ih => rw [readAll_cons, List.length_cons, ih, List.length_cons]

theorem readAll_append (B : Buffer σ) (before requests : List Request) (s : σ) :
    B.readAll (before ++ requests) s = ((B.readAll before s).1 ++ (B.readAll requests (B.readAll before s).2).1,
      (B.readAll requests (B.readAll before s).2).2) := by
  induction before generalizing s with
  | nil => rfl
  | cons r before ih =>
    rw [List.cons_append, readAll_cons, ih, readAll_cons, List.cons_append]

namespace Lawful

variable {B : Buffer σ} {content : σ → Bytes} {r : Request} {s : σ}

theorem read_of_le (h : B.Lawful content) (hr : r.width ≤ (content s).length) :
    B.read r s = (.ok (r.decode ((content s).take r.width)), (B.get r s).2) := by
  rw [← h.remaining] at hr
  rw [← h.value r s (h.remaining s ▸ hr)]
  cases r with
  | block length =>
    have hle : length ≤ B.remaining s := hr
    rw [read, if_neg (Nat.not_lt.mpr hle)]
  | _ =>
    rw [read, if_pos hr]
    exact nofun

theorem read_of_lt (h : B.Lawful content) (hr : (content s).length < r.width) :
    B.read r s = (.error (r.shortage (content s).length), s) := by
  rw [← h.remaining] at hr ⊢
  cases r with
  | block length =>
    have hlt : B.remaining s < length := hr
    rw [read, if_pos hlt]
    rfl
  | _ =>
    rw [read, if_neg (Nat.not_le.mpr hr)]
    · rfl
    · exact nofun

/-- A safe read is served as from the bytes that the buffer holds. -/
theorem serve_eq (h : B.Lawful content) (r : Request) (s : σ) :
    r.serve (content s) = ⟨(B.read r s).1, content (B.read r s).2⟩ := by
  rcases Nat.lt_or_ge (content s).length r.width with hr | hr
  · rw [Request.serve_of_lt hr, h.read_of_lt hr]
  · rw [Request.serve_of_le hr, h.read_of_le hr, h.rest r s hr]

/-- A row of safe reads is served as from the bytes that the buffer holds. -/
theorem serveAll_eq (h : B.Lawful content) (requests : List Request) (s : σ) :
    (Request.serveAll requests (content s)).map (·.outcome) = (B.readAll requests s).1 := by
  induction requests generalizing s with
  | nil => rfl
  | cons r requests ih =>
    rw [Request.serveAll, List.map_cons, h.serve_eq, ih, readAll_cons]

/-- A read moves bytes from the front of the buffer into the value that it answers, or none at all. -/
theorem spelled_read (h : B.Lawful content) (r : Request) (s : σ) :
    spelled [(B.read r s).1] ++ content (B.read r s).2 = content s := by
  rcases Nat.lt_or_ge (content s).length r.width with hr | hr
  · rw [h.read_of_lt hr]
    rfl
  · have hb : (r.decode ((content s).take r.width)).bytes = (content s).take r.width :=
      Request.bytes_decode (by rw [List.length_take]; omega)
    rw [h.read_of_le hr, h.rest r s hr, spelled]
    simp only [List.filterMap_cons, List.filterMap_nil, Except.toOption, List.flatMap_cons, List.flatMap_nil, hb,
      List.append_nil, List.take_append_drop]

theorem spelled_cons (outcome : Except Shortage Value) (outcomes : List (Except Shortage Value)) :
    spelled (outcome :: outcomes) = spelled [outcome] ++ spelled outcomes := by
  rw [spelled, ← List.singleton_append, List.filterMap_append, List.flatMap_append]
  rfl

/-- A row of reads moves bytes from the front of the buffer into the values that they answer, in order. -/
theorem spelled_readAll (h : B.Lawful content) (requests : List Request) (s : σ) :
    spelled (B.readAll requests s).1 ++ content (B.readAll requests s).2 = content s := by
  induction requests generalizing s with
  | nil => rfl
  | cons r requests ih =>
    calc spelled (B.readAll (r :: requests) s).1 ++ content (B.readAll (r :: requests) s).2
        = spelled [(B.read r s).1] ++ (spelled (B.readAll requests (B.read r s).2).1 ++
            content (B.readAll requests (B.read r s).2).2) := by rw [readAll_cons, spelled_cons, List.append_assoc]
      _ = spelled [(B.read r s).1] ++ content (B.read r s).2 := by rw [ih]
      _ = content s := h.spelled_read r s

/-- **Typed reads conserve bytes.** Let the getters of a buffer be big-endian and advance by what they read. At any point
of a row of safe reads, a read succeeds exactly if as many bytes are left as it asks for; if it fails, the buffer is what
it was, and the cause tells what was wanted and what was there. So the bytes of the values that were read, in order, and
the bytes that are left after the last read make up the buffer. All reads are answered as from a byte string. -/
theorem conserves (h : B.Lawful content) (requests : List Request) (s : σ) :
    (∀ before r after, requests = before ++ r :: after →
      let s' := (B.readAll before s).2
      (B.readAll requests s).1[before.length]? = some (B.read r s').1 ∧
      ((∃ v, (B.read r s').1 = .ok v) ↔ r.width ≤ B.remaining s') ∧
      ∀ e, (B.read r s').1 = .error e → (B.read r s').2 = s' ∧ e = r.shortage (B.remaining s')) ∧
    spelled (B.readAll requests s).1 ++ content (B.readAll requests s).2 = content s ∧
    (B.readAll requests s).1 = (Request.serveAll requests (content s)).map (·.outcome) := by
  refine ⟨?_, h.spelled_readAll requests s, (h.serveAll_eq requests s).symm⟩
  rintro before r after rfl s'
  refine ⟨?_, ?_⟩
  · rw [readAll_append, ← length_readAll B before s, List.getElem?_append_right (Nat.le_refl _), Nat.sub_self,
      readAll_cons]
    rfl
  rw [h.remaining]
  rcases Nat.lt_or_ge (content s').length r.width with hr | hr
  · rw [h.read_of_lt hr]
    refine ⟨⟨nofun, fun hle => absurd hle (Nat.not_le.mpr hr)⟩, ?_⟩
    rintro e he
    cases he
    exact ⟨rfl, rfl⟩
  · rw [h.read_of_le hr]
    exact ⟨⟨fun _ => hr, fun _ => ⟨_, rfl⟩⟩, nofun⟩

end Lawful

/-! ## A buffer at a position -/

/-- The bytes of a byte string from a position on, read by moving the position. -/
def cursor (data : Bytes) : Buffer Nat where
  remaining pos := data.length - pos
  get r pos := (r.decode ((data.drop pos).take r.width), pos + r.width)

theorem lawful_cursor (data : Bytes) : (cursor data).Lawful fun pos => data.drop pos where
  remaining _ := List.length_drop.symm
  value _ _ _ := rfl
  rest _ _ _ := List.drop_drop.symm

/-- Three bytes: a failing word and a failing block do not shift what is read after them. -/
theorem conserves_cutWord :
    ((cursor [0x80, 0xff, 0x01]).readAll [.i16, .u16, .block 0xffffffffffffffff, .i8, .f32] 0).1 =
      [.ok (.i16 (-32513)), .error .word, .error (.block 0xffffffffffffffff 1), .ok (.i8 1), .error .word] ∧
    spelled [.ok (.i16 (-32513)), .error .word, .error (.block 0xffffffffffffffff 1), .ok (.i8 1), .error .word] ++
      [0x80, 0xff, 0x01].drop 3 = [0x80, 0xff, 0x01] ∧
    ∀ e, ((cursor [0x80, 0xff, 0x01]).read .u16 2).1 = .error e → ((cursor [0x80, 0xff, 0x01]).read .u16 2).2 = 2 := by
  obtain ⟨hreads, hbytes, hserve⟩ :=
    (lawful_cursor [0x80, 0xff, 0x01]).conserves [.i16, .u16, .block 0xffffffffffffffff, .i8, .f32] 0
  refine ⟨hserve.trans rfl, ?_, fun e he => ((hreads [.i16] .u16 [.block 0xffffffffffffffff, .i8, .f32] rfl).2.2 e he).1⟩
  rw [hserve] at hbytes
  exact hbytes

end Buffer
end JvmAccessors
