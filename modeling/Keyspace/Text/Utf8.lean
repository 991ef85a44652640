/-!
Texts as bytes. A character takes one to four bytes; decoding refuses overlong forms, surrogates and
numbers above the last character, and tells where the bytes stop being a text.
-/
namespace Keyspace.Utf8

inductive Fault where
  /-- A sequence of `length` bytes that no byte can continue. -/
  | malformed (index length : Nat)
  /-- The bytes end inside a sequence. -/
  | truncated (index : Nat)
  deriving DecidableEq, Repr

def Fault.message : Fault → String
  | malformed index length =>
    "invalid utf-8 sequence of " ++ toString length ++ " bytes from index " ++ toString index
  | truncated index => "incomplete utf-8 byte sequence from index " ++ toString index

def encodeChar (c : Char) : List UInt8 :=
  let n := c.toNat
  if n < 0x80 then [UInt8.ofNat n]
  else if n < 0x800 then [UInt8.ofNat (0xC0 + n / 64), UInt8.ofNat (0x80 + n % 64)]
  else if n < 0x10000 then
    [UInt8.ofNat (0xE0 + n / 4096), UInt8.ofNat (0x80 + n / 64 % 64), UInt8.ofNat (0x80 + n % 64)]
  else
    [UInt8.ofNat (0xF0 + n / 262144), UInt8.ofNat (0x80 + n / 4096 % 64),
      UInt8.ofNat (0x80 + n / 64 % 64), UInt8.ofNat (0x80 + n % 64)]

def encodeChars (cs : List Char) : List UInt8 := cs.flatMap encodeChar

def encode (s : String) : List UInt8 := encodeChars s.toList

/-- The six bits of a byte that continues a sequence. -/
def tail? (b : UInt8) : Option Nat := if 0x80 ≤ b ∧ b < 0xC0 then some (b.toNat - 0x80) else none

/-- The six bits of the second byte of a sequence, where the first byte `b` may narrow its range. -/
def second? (b c : UInt8) : Option Nat :=
  if b = 0xE0 ∧ c < 0xA0 ∨ b = 0xED ∧ 0xA0 ≤ c ∨ b = 0xF0 ∧ c < 0x90 ∨ b = 0xF4 ∧ 0x90 ≤ c then none
  else tail? c

/-- The characters of the bytes from `index` on. -/
def decodeFrom (index : Nat) : List UInt8 → Except Fault (List Char)
  | [] => .ok []
  | b :: rest =>
    if b < 0x80 then (decodeFrom (index + 1) rest).map (Char.ofNat b.toNat :: ·)
    else if b < 0xC2 ∨ 0xF5 ≤ b then .error (.malformed index 1)
    else match rest with
      | [] => .error (.truncated index)
      | c :: rest =>
        match second? b c with
        | none => .error (.malformed index 1)
        | some y =>
          if b < 0xE0 then
            (decodeFrom (index + 2) rest).map (Char.ofNat (64 * (b.toNat - 0xC0) + y) :: ·)
          else match rest with
            | [] => .error (.truncated index)
            | d :: rest =>
              match tail? d with
              | none => .error (.malformed index 2)
              | some z =>
                if b < 0xF0 then
                  (decodeFrom (index + 3) rest).map
                    (Char.ofNat (4096 * (b.toNat - 0xE0) + 64 * y + z) :: ·)
                else match rest with
                  | [] => .error (.truncated index)
                  | e :: rest =>
                    match tail? e with
                    | none => .error (.malformed index 3)
                    | some w =>
                      (decodeFrom (index + 4) rest).map
                        (Char.ofNat (262144 * (b.toNat - 0xF0) + 4096 * y + 64 * z + w) :: ·)

def decodeChars (bytes : List UInt8) : Except Fault (List Char) := decodeFrom 0 bytes

def decode (bytes : List UInt8) : Except Fault String := (decodeChars bytes).map String.ofList

end Keyspace.Utf8
