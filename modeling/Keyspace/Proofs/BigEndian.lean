import Keyspace.Counter
import Mathlib.Algebra.Group.Nat.Defs
import Mathlib.Data.List.Induction

/-!
Numbers of a fixed width as bytes and back.
-/
namespace Keyspace

namespace BigEndian

theorem decode_append_singleton (bytes : List UInt8) (b : UInt8) :
    decode (bytes ++ [b]) = 256 * decode bytes + b.toNat := by
  simp [decode]

/-- The bytes of a number keep it modulo the numbers that they have room for. -/
theorem decode_encode (width n : Nat) : decode (encode width n) = n % 256 ^ width := by
  induction width generalizing n with
  | zero => simp [encode, decode, Nat.mod_one]
  | succ width ih =>
    have hsplit : n % 256 ^ (width + 1) = 256 * (n / 256 % 256 ^ width) + n % 256 := by
      rw [Nat.pow_succ, Nat.mul_comm, Nat.mod_mul]
      omega
    rw [encode, decode_append_singleton, ih, hsplit]
    simp

@[simp] theorem ofNat_decode_encode64 (n : UInt64) : UInt64.ofNat (decode (encode64 n)) = n := by
  have := n.toNat_lt
  rw [encode64, decode_encode, Nat.mod_eq_of_lt (by omega), UInt64.ofNat_toNat]

@[simp] theorem ofNat_decode_encode32 (n : UInt32) : UInt32.ofNat (decode (encode32 n)) = n := by
  have := n.toNat_lt
  rw [encode32, decode_encode, Nat.mod_eq_of_lt (by omega), UInt32.ofNat_toNat]

theorem encode32_inj {m n : UInt32} : encode32 m = encode32 n ↔ m = n :=
  ⟨fun h => by rw [← ofNat_decode_encode32 m, h, ofNat_decode_encode32], fun h => by rw [h]⟩

theorem encode64_inj {m n : UInt64} : encode64 m = encode64 n ↔ m = n :=
  ⟨fun h => by rw [← ofNat_decode_encode64 m, h, ofNat_decode_encode64], fun h => by rw [h]⟩

theorem decode_lt (bytes : List UInt8) : decode bytes < 256 ^ bytes.length := by
  induction bytes using List.reverseRecOn with
  | nil => exact Nat.one_pos
  | append_singleton bytes b ih =>
    have hb := b.toNat_lt
    rw [decode_append_singleton, List.length_append, List.length_singleton, Nat.pow_succ]
    omega

/-- Bytes are the only ones, of their count, of the number that they stand for. -/
theorem encode_decode (bytes : List UInt8) : encode bytes.length (decode bytes) = bytes := by
  induction bytes using List.reverseRecOn with
  | nil => rfl
  | append_singleton bytes b ih =>
    have hb := b.toNat_lt
    have hhigh : (256 * decode bytes + b.toNat) / 256 = decode bytes := by omega
    have hlow : UInt8.ofNat (256 * decode bytes + b.toNat) = b := by
      rw [← UInt8.toNat_inj, UInt8.toNat_ofNat']
      omega
    rw [decode_append_singleton, List.length_append, List.length_singleton, encode, hhigh, ih, hlow]

theorem encode64_ofNat_decode {bytes : List UInt8} (h : bytes.length = 8) :
    encode64 (UInt64.ofNat (decode bytes)) = bytes := by
  have hlt := decode_lt bytes
  rw [h] at hlt
  have hnat : (UInt64.ofNat (decode bytes)).toNat = decode bytes := UInt64.toNat_ofNat_of_lt' hlt
  rw [encode64, hnat, ← h, encode_decode]

end BigEndian

@[simp] theorem Counter.decode?_encode (n : Int64) : decode? (encode n) = some n := by
  have hlength : (BigEndian.encode64 n.toUInt64).length = 8 := BigEndian.length_encode ..
  simp [decode?, encode, hlength]

/-- A counter is stored in one form only. -/
theorem Counter.encode_of_decode? {v : Value} {n : Int64} (h : decode? v = some n) : encode n = v := by
  rw [decode?] at h
  split at h
  · next hlength =>
    obtain rfl := Option.some.inj h
    rw [encode, UInt64.toUInt64_toInt64, BigEndian.encode64_ofNat_decode hlength]
  · exact absurd h (by simp)

/-- Any eight bytes are a counter. -/
theorem Counter.exists_encode {v : Value} (h : v.length = 8) : ∃ n, decode? v = some n ∧ encode n = v :=
  ⟨_, if_pos h, encode_of_decode? (if_pos h)⟩

end Keyspace
