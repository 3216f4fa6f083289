import JvmAccessors.Bytes.BigEndian
import JvmAccessors.Text.Hexadecimal

/-!
# Modified UTF-8

The text of a class file is a sequence of UTF-16 code units, each written in one, two or three bytes. Unlike UTF-8 it
writes NUL in two bytes, and a character above `U+FFFF` as two units of three bytes. `encode` writes a text; `decode`
reads one in two stages, bytes to located code units (`units`) and code units to characters (`Units.chars`), and says
where the first byte stands that no text has there.
-/

namespace JvmAccessors
namespace ModifiedUtf8

/-- Why a byte string is no text; offsets are those of the lead byte of the unit, unless said otherwise. -/
inductive Error
  | truncated
  /-- The byte at this offset should continue a unit. -/
  | badContinuation (byte : UInt8) (offset : Nat)
  /-- A NUL stands in one byte. -/
  | rawNul (offset : Nat)
  | overlong (offset : Nat)
  | badLead (byte : UInt8) (offset : Nat)
  /-- Half of a surrogate pair stands alone. -/
  | unpaired (offset : Nat)
  /-- No character has this number. -/
  | invalidCode (code offset : Nat)
  deriving DecidableEq, Repr

/-- The wording of a cause. -/
def Error.message : Error → String
  | .truncated => "truncated modified UTF-8 sequence"
  | .badContinuation byte offset => s!"bad continuation byte {Hexadecimal.byte byte} @ {offset}"
  | .rawNul offset => s!"raw NUL byte @ {offset}"
  | .overlong offset => s!"overlong sequence @ {offset}"
  | .badLead byte offset => s!"invalid modified UTF-8 lead byte {Hexadecimal.byte byte} @ {offset}"
  | .unpaired offset => s!"unpaired surrogate @ {offset}"
  | .invalidCode code offset => s!"invalid code point {Hexadecimal.number code} @ {offset}"

/-! ## Writing -/

/-- The bytes of a code unit; NUL takes the form of two bytes. -/
def unitBytes (u : Nat) : Bytes :=
  if 0 < u ∧ u < 0x80 then [UInt8.ofNat u]
  else if u < 0x800 then [UInt8.ofNat (0xc0 + u / 64), UInt8.ofNat (0x80 + u % 64)]
  else [UInt8.ofNat (0xe0 + u / 4096), UInt8.ofNat (0x80 + u / 64 % 64), UInt8.ofNat (0x80 + u % 64)]

/-- The UTF-16 code units of a character: itself, or a surrogate pair above `U+FFFF`. -/
def charUnits (c : Char) : List Nat :=
  if c.toNat < 0x10000 then [c.toNat]
  else [0xd800 + (c.toNat - 0x10000) / 1024, 0xdc00 + (c.toNat - 0x10000) % 1024]

/-- The bytes of a character. -/
def charBytes (c : Char) : Bytes := (charUnits c).flatMap unitBytes

/-- The bytes of a text. -/
def encode (text : String) : Bytes := text.toList.flatMap charBytes

/-! ## Reading -/

/-- The code units at the front of a byte string, each with the offset of its lead byte, and what stopped them. -/
inductive Units
  /-- The bytes end. -/
  | done
  /-- No unit starts here. -/
  | broken (cause : Error)
  /-- A unit, and the units after it. -/
  | unit (offset code : Nat) (rest : Units)
  deriving DecidableEq, Repr

/-- A byte that continues a unit: its upper bits are `10`. -/
def isContinuation (b : UInt8) : Bool := 0x80 ≤ b && b < 0xc0

/-- The code units of a byte string that starts at an offset. -/
def units : Nat → Bytes → Units
  | _, [] => .done
  | start, a :: rest =>
    if a = 0 then .broken (.rawNul start)
    else if a < 0x80 then .unit start a.toNat (units (start + 1) rest)
    else if 0xc0 ≤ a ∧ a < 0xe0 then
      match rest with
      | [] => .broken .truncated
      | b :: rest =>
        if isContinuation b then
          let code := (a.toNat - 0xc0) * 64 + (b.toNat - 0x80)
          if code = 0 ∨ 0x80 ≤ code then .unit start code (units (start + 2) rest) else .broken (.overlong start)
        else .broken (.badContinuation b (start + 1))
    else if 0xe0 ≤ a ∧ a < 0xf0 then
      match rest with
      | [] => .broken .truncated
      | b :: rest =>
        if isContinuation b then
          match rest with
          | [] => .broken .truncated
          | c :: rest =>
            if isContinuation c then
              let code := (a.toNat - 0xe0) * 4096 + (b.toNat - 0x80) * 64 + (c.toNat - 0x80)
              if 0x800 ≤ code then .unit start code (units (start + 3) rest) else .broken (.overlong start)
            else .broken (.badContinuation c (start + 2))
        else .broken (.badContinuation b (start + 1))
    else .broken (.badLead a start)

/-- The first half of a surrogate pair. -/
def isHigh (u : Nat) : Bool := 0xd800 ≤ u && u < 0xdc00

/-- The second half of a surrogate pair. -/
def isLow (u : Nat) : Bool := 0xdc00 ≤ u && u < 0xe000

/-- The number that a surrogate pair gives. -/
def pairCode (high low : Nat) : Nat := 0x10000 + (high - 0xd800) * 1024 + (low - 0xdc00)

/-- The character with a number that units at an offset give. -/
def scalar (start code : Nat) : Except Error Char :=
  if code.isValidChar then .ok (Char.ofNat code) else .error (.invalidCode code start)

/-- The characters of a sequence of code units. -/
def Units.chars : Units → Except Error (List Char)
  | .done => .ok []
  | .broken cause => .error cause
  | .unit start u rest =>
    if isHigh u then
      match rest with
      | .done => .error (.unpaired start)
      | .broken cause => .error cause
      | .unit _ v rest =>
        if isLow v then do
          let c ← scalar start (pairCode u v)
          return c :: (← rest.chars)
        else .error (.unpaired start)
    else if isLow u then .error (.unpaired start)
    else do
      let c ← scalar start u
      return c :: (← rest.chars)

/-- The text of a byte string. -/
def decode (b : Bytes) : Except Error String := (units 0 b).chars.map String.ofList

end ModifiedUtf8
end JvmAccessors
