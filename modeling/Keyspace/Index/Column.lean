import Keyspace.Store

/-!
The values that index keys are made of, as bytes. Each encoding sorts as its values do and shows by itself
where it ends, so that several can stand one after the other in a key. Decoding takes a value off the front
of some bytes; it takes nothing off bytes that are truncated or wrongly escaped.
-/
namespace Keyspace.Index

inductive ColumnType where
  | reference
  | long
  | string
  | boolean
  deriving DecidableEq

abbrev ObjectId := UInt64

def describeObject (id : ObjectId) : String := Hex.encode (BigEndian.encode64 id)

/-- Reading from the front of some bytes, which keep what is not read. -/
abbrev Decoder (α : Type) := StoreM (List UInt8) α

namespace Decoder

def bytes (count : Nat) (what : String) : Decoder (List UInt8) := do
  let input ← get
  if input.length < count then throw (.corrupt (.truncated what count input.length))
  set (input.drop count)
  return input.take count

def uint64 (what : String) : Decoder UInt64 := do
  return UInt64.ofNat (BigEndian.decode (← bytes 8 what))

end Decoder

namespace ColumnType

def name : ColumnType → String
  | reference => "reference"
  | long => "long"
  | string => "string"
  | boolean => "boolean"

@[reducible] def Value : ColumnType → Type
  | reference => ObjectId
  | long => Int64
  | string => String
  | boolean => Bool

/-- The bit that tells negative numbers. -/
def signBit : UInt64 := 0x8000000000000000

/-- Escapes the bytes `0` and `1`, so that `0` is free to end a string and sorts below all that may go
on. -/
def escapeByte (b : UInt8) : List UInt8 :=
  if b = 0 then [1, 1] else if b = 1 then [1, 2] else [b]

/-- The bytes of an escaped string up to its end, and what follows. -/
def unescape : List UInt8 → Except Corruption (List UInt8 × List UInt8)
  | [] => .error .unterminatedString
  | 0 :: rest => .ok ([], rest)
  | 1 :: 1 :: rest => (unescape rest).map fun (s, r) => (0 :: s, r)
  | 1 :: 2 :: rest => (unescape rest).map fun (s, r) => (1 :: s, r)
  | 1 :: rest => .error (.invalidEscape rest.head?)
  | b :: rest => (unescape rest).map fun (s, r) => (b :: s, r)

def encode : (t : ColumnType) → t.Value → List UInt8
  | reference, id => BigEndian.encode64 id
  | long, n => BigEndian.encode64 (n.toUInt64 ^^^ signBit)
  | string, s => (Utf8.encode s).flatMap escapeByte ++ [0]
  | boolean, b => [if b then 1 else 0]

/-- Takes a value off the front of some bytes. -/
def decode : (t : ColumnType) → Decoder t.Value
  | reference => Decoder.uint64 "object id"
  | long => do return ((← Decoder.uint64 "long") ^^^ signBit).toInt64
  | string => do
    match unescape (← get) with
    | .error why => throw (.corrupt why)
    | .ok (bytes, rest) =>
      set rest
      match Utf8.decode bytes with
      | .ok s => return s
      | .error fault => throw (.corrupt (.invalidText fault))
  | boolean => do
    match ← Decoder.bytes 1 "boolean" with
    | [0] => return false
    | [1] => return true
    | bytes => throw (.corrupt (.invalidBoolean (bytes.headD 0)))

end ColumnType

@[reducible] def Values : List ColumnType → Type
  | [] => Unit
  | t :: ts => t.Value × Values ts

namespace Values

def encode : (ts : List ColumnType) → Values ts → List UInt8
  | [], () => []
  | t :: ts, (v, vs) => t.encode v ++ encode ts vs

/-- Takes a value of each column off the front of some bytes. -/
def decode : (ts : List ColumnType) → Decoder (Values ts)
  | [] => return ()
  | t :: ts => do return (← t.decode, ← decode ts)

end Values

end Keyspace.Index
