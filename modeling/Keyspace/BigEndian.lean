/-!
Numbers as bytes of a fixed count, the most significant first, so that the bytes sort as the numbers do.
-/
namespace Keyspace.BigEndian

/-- The lowest `width` bytes of a number. -/
def encode : Nat → Nat → List UInt8
  | 0, _ => []
  | width + 1, n => encode width (n / 256) ++ [UInt8.ofNat n]

@[simp] theorem length_encode (width n : Nat) : (encode width n).length = width := by
  induction width generalizing n with
  | zero => rfl
  | succ width ih => simp [encode, ih]

def decode (bytes : List UInt8) : Nat := bytes.foldl (fun n b => 256 * n + b.toNat) 0

def encode64 (n : UInt64) : List UInt8 := encode 8 n.toNat

def encode32 (n : UInt32) : List UInt8 := encode 4 n.toNat

end Keyspace.BigEndian
