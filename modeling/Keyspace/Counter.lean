import Keyspace.BigEndian
import Keyspace.Error

/-!
Counters: signed 64-bit numbers stored as eight bytes, the most significant first. Additions wrap.
-/
namespace Keyspace.Counter

def encode (n : Int64) : Value := BigEndian.encode64 n.toUInt64

/-- The counter that a value of eight bytes stands for. -/
def decode? (v : Value) : Option Int64 :=
  if v.length = 8 then some (UInt64.ofNat (BigEndian.decode v)).toInt64 else none

def decode (v : Value) : Except StoreError Int64 :=
  match decode? v with
  | some n => .ok n
  | none => .error (.invalidCounter v.length)

end Keyspace.Counter
