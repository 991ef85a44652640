import Keyspace.Proofs.BigEndian
import Keyspace.Proofs.Utf8

/-!
Encodings that sort as what they encode. Of two such encodings neither begins the other, so that the order of the
values shows at some place whatever bytes follow.
-/
namespace Keyspace

/-- At the first place where two byte strings differ, both have a byte, and the byte of the first one is less. -/
inductive Precedes : List UInt8 → List UInt8 → Prop where
  | here {x y : UInt8} (h : x < y) (a b : List UInt8) : Precedes (x :: a) (y :: b)
  | later (x : UInt8) {a b : List UInt8} (h : Precedes a b) : Precedes (x :: a) (x :: b)

namespace Precedes

variable {a b c : List UInt8}

/-- What follows makes no difference. -/
theorem append (h : Precedes a b) (r s : List UInt8) : Precedes (a ++ r) (b ++ s) := by
  induction h with
  | here h a b => exact .here h _ _
  | later x h ih => exact .later x ih

theorem append_left (h : Precedes a b) (c : List UInt8) : Precedes (c ++ a) (c ++ b) := by
  induction c with
  | nil => exact h
  | cons x c ih => exact .later x ih

theorem lt (h : Precedes a b) : a < b := by
  induction h with
  | here h a b => exact List.cons_lt_cons_iff.2 (.inl h)
  | later x h ih => exact List.cons_lt_cons_iff.2 (.inr ⟨rfl, ih⟩)

/-- Neither of the two begins the other one. -/
theorem append_ne (h : Precedes a b) (r s : List UInt8) : a ++ r ≠ b ++ s := fun he => by
  have hlt := (h.append r s).lt
  rw [he] at hlt
  exact List.lt_irrefl _ hlt

end Precedes

/-! ## Numbers -/

namespace BigEndian

theorem precedes_byte {m n : Nat} (h : m % 256 < n % 256) : Precedes [UInt8.ofNat m] [UInt8.ofNat n] := by
  refine .here ?_ [] []
  rw [UInt8.lt_iff_toNat_lt, UInt8.toNat_ofNat', UInt8.toNat_ofNat']
  exact h

/-- The bytes of numbers that have room in them sort as the numbers. -/
theorem precedes_encode {width m n : Nat} (h : m < n) (hn : n < 256 ^ width) :
    Precedes (encode width m) (encode width n) := by
  induction width generalizing m n with
  | zero => omega
  | succ width ih =>
    rw [encode, encode]
    by_cases hhigh : m / 256 < n / 256
    · have hroom : n / 256 < 256 ^ width := by
        rw [Nat.pow_succ] at hn
        exact Nat.div_lt_of_lt_mul (by omega)
      exact (ih hhigh hroom).append _ _
    · have hsame : m / 256 = n / 256 := by omega
      rw [hsame]
      exact (precedes_byte (by omega)).append_left _

theorem precedes_encode64 {m n : UInt64} (h : m < n) : Precedes (encode64 m) (encode64 n) :=
  precedes_encode (UInt64.lt_iff_toNat_lt.1 h) n.toNat_lt

end BigEndian

/-! ## Texts -/

namespace Utf8

theorem precedes_bytes {m n : Nat} (h : m < n) (hn : n < 256) (a b : List UInt8) :
    Precedes (UInt8.ofNat m :: a) (UInt8.ofNat n :: b) := by
  refine .here ?_ a b
  rw [UInt8.lt_iff_toNat_lt, toNat_byte hn, toNat_byte (by omega)]
  exact h

theorem precedes_cons {m n : Nat} (h : m ≤ n) (hn : n < 256) {a b : List UInt8} (hrest : m = n → Precedes a b) :
    Precedes (UInt8.ofNat m :: a) (UInt8.ofNat n :: b) := by
  rcases Nat.lt_or_eq_of_le h with hlt | rfl
  · exact precedes_bytes hlt hn a b
  · exact .later _ (hrest rfl)

/-- The bytes of characters sort as the numbers of the characters; a longer sequence has a greater first byte. -/
theorem precedes_encodeChar {c d : Char} (h : c < d) : Precedes (encodeChar c) (encodeChar d) := by
  obtain ⟨m, hm⟩ : ∃ m, c.toNat = m := ⟨_, rfl⟩
  obtain ⟨n, hn⟩ : ∃ n, d.toNat = n := ⟨_, rfl⟩
  have hlt : m < n := by
    rw [← hm, ← hn]
    exact h
  have hvalid : n < 0xD800 ∨ 0xDFFF < n ∧ n < 0x110000 := hn ▸ d.valid
  simp only [encodeChar, hm, hn]
  by_cases h1 : n < 0x80
  · rw [if_pos h1, if_pos (by omega)]
    exact precedes_bytes hlt (by omega) _ _
  rw [if_neg h1]
  by_cases h2 : n < 0x800
  · rw [if_pos h2]
    split
    · exact precedes_bytes (by omega) (by omega) _ _
    · rw [if_pos (by omega)]
      exact precedes_cons (by omega) (by omega) fun _ => precedes_bytes (by omega) (by omega) _ _
  rw [if_neg h2]
  by_cases h3 : n < 0x10000
  · rw [if_pos h3]
    split
    · exact precedes_bytes (by omega) (by omega) _ _
    split
    · exact precedes_bytes (by omega) (by omega) _ _
    · rw [if_pos (by omega)]
      exact precedes_cons (by omega) (by omega) fun _ => precedes_cons (by omega) (by omega) fun _ =>
        precedes_bytes (by omega) (by omega) _ _
  rw [if_neg h3]
  split
  · exact precedes_bytes (by omega) (by omega) _ _
  split
  · exact precedes_bytes (by omega) (by omega) _ _
  split
  · exact precedes_bytes (by omega) (by omega) _ _
  · exact precedes_cons (by omega) (by omega) fun _ => precedes_cons (by omega) (by omega) fun _ =>
      precedes_cons (by omega) (by omega) fun _ => precedes_bytes (by omega) (by omega) _ _

end Utf8

end Keyspace
