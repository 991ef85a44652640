/-!
Byte strings as text: two lowercase hexadecimal digits a byte.
-/
namespace Keyspace.Hex

def digit (n : Nat) : Char := if n < 10 then Char.ofNat (48 + n) else Char.ofNat (87 + n)

/-- The number that a digit of either case stands for. -/
def digitValue? (c : Char) : Option Nat :=
  if '0' ≤ c ∧ c ≤ '9' then some (c.toNat - 48)
  else if 'a' ≤ c ∧ c ≤ 'f' then some (c.toNat - 87)
  else if 'A' ≤ c ∧ c ≤ 'F' then some (c.toNat - 55)
  else none

def digits (bytes : List UInt8) : List Char :=
  bytes.flatMap fun b => [digit (b.toNat / 16), digit (b.toNat % 16)]

/-- Two digits a byte, the high one first. -/
def encode (bytes : List UInt8) : String := String.ofList (digits bytes)

def decodeDigits? : List Char → Option (List UInt8)
  | [] => some []
  | [_] => none
  | a :: b :: rest => do
    let high ← digitValue? a
    let low ← digitValue? b
    let bytes ← decodeDigits? rest
    some (UInt8.ofNat (16 * high + low) :: bytes)

def decode? (text : String) : Option (List UInt8) := decodeDigits? text.toList

end Keyspace.Hex
