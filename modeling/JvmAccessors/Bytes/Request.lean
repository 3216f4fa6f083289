import JvmAccessors.Bytes.Reader

/-!
# Sequences of typed reads

A `Request` asks for one value off the front of a byte string: a word of some width, taken as unsigned, as two's
complement or as the bits of a float, or a block of a given length. `Request.serveAll` answers a sequence of requests in
turn; one that fails takes nothing, so that the next is served from the same bytes. `Value.bytes` spells a value again.
-/

namespace JvmAccessors

/-- One value that is asked for. -/
inductive Request
  | u8 | u16 | u32 | u64
  | i8 | i16 | i32 | i64
  | f32 | f64
  | block (length : Nat)
  deriving DecidableEq, Repr

/-- A value that was read; a float is kept as its bits. -/
inductive Value
  | u8 (n : UInt8) | u16 (n : UInt16) | u32 (n : UInt32) | u64 (n : UInt64)
  | i8 (n : Int8) | i16 (n : Int16) | i32 (n : Int32) | i64 (n : Int64)
  | f32 (bits : UInt32) | f64 (bits : UInt64)
  | block (bytes : Bytes)
  deriving DecidableEq

/-- The big-endian spelling of a value. -/
def Value.bytes : Value → Bytes
  | .u8 n => Bytes.ofNat 1 n.toNat
  | .u16 n => Bytes.ofNat 2 n.toNat
  | .u32 n => Bytes.ofNat 4 n.toNat
  | .u64 n => Bytes.ofNat 8 n.toNat
  | .i8 n => Bytes.ofNat 1 n.toUInt8.toNat
  | .i16 n => Bytes.ofNat 2 n.toUInt16.toNat
  | .i32 n => Bytes.ofNat 4 n.toUInt32.toNat
  | .i64 n => Bytes.ofNat 8 n.toUInt64.toNat
  | .f32 bits => Bytes.ofNat 4 bits.toNat
  | .f64 bits => Bytes.ofNat 8 bits.toNat
  | .block bytes => bytes

namespace Request

/-- How many bytes a request takes. -/
def width : Request → Nat
  | .u8 | .i8 => 1
  | .u16 | .i16 => 2
  | .u32 | .i32 | .f32 => 4
  | .u64 | .i64 | .f64 => 8
  | .block length => length

/-- The reading that a request stands for. -/
def reader : Request → Reader Shortage Value
  | .u8 => Value.u8 <$> Reader.u8
  | .u16 => Value.u16 <$> Reader.u16
  | .u32 => Value.u32 <$> Reader.u32
  | .u64 => Value.u64 <$> Reader.u64
  | .i8 => (Value.i8 ·.toInt8) <$> Reader.u8
  | .i16 => (Value.i16 ·.toInt16) <$> Reader.u16
  | .i32 => (Value.i32 ·.toInt32) <$> Reader.u32
  | .i64 => (Value.i64 ·.toInt64) <$> Reader.u64
  | .f32 => Value.f32 <$> Reader.u32
  | .f64 => Value.f64 <$> Reader.u64
  | .block length => Value.block <$> Reader.block length

/-- What came of a request, and the bytes that are left after it. -/
structure Answer where
  outcome : Except Shortage Value
  remaining : Bytes

/-- Serves one request; a failure takes nothing. -/
def serve (request : Request) (b : Bytes) : Answer :=
  match request.reader b with
  | .ok (value, rest) => ⟨.ok value, rest⟩
  | .error shortage => ⟨.error shortage, b⟩

/-- Serves the requests in turn, each from the bytes that the one before it left. -/
def serveAll : List Request → Bytes → List Answer
  | [], _ => []
  | request :: requests, b => request.serve b :: serveAll requests (request.serve b).remaining

end Request
end JvmAccessors
