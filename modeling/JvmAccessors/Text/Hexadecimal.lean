/-!
# Hexadecimal numbers in messages

Messages show a byte with two digits (`Hexadecimal.byte`) and any other number with as many as it needs
(`Hexadecimal.number`), in lower case after `0x`.
-/

namespace JvmAccessors
namespace Hexadecimal

/-- The hexadecimal digits of a number, as few as it needs. -/
def digits (n : Nat) : String := String.ofList (Nat.toDigits 16 n)

/-- A number after `0x`. -/
def number (n : Nat) : String := "0x" ++ digits n

/-- The two hexadecimal digits of a byte. -/
def twoDigits (b : UInt8) : String := if b < 16 then "0" ++ digits b.toNat else digits b.toNat

/-- A byte after `0x`, with two digits. -/
def byte (b : UInt8) : String := "0x" ++ twoDigits b

end Hexadecimal
end JvmAccessors
