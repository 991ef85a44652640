import Keyspace.Index.Column
import Keyspace.Proofs.ByteOrder
import Keyspace.Proofs.StoreM

/-!
The values of columns and their bytes. The bytes of values sort as the values, column after column, whatever comes
behind them, and what is decoded from the front of some bytes is what was encoded there.
-/
namespace Keyspace.Index

namespace ColumnType

def Less : (t : ColumnType) → t.Value → t.Value → Prop
  | reference, a, b => a < b
  | long, a, b => a < b
  | string, a, b => a < b
  | boolean, a, b => a < b

/-- The order of the values of a type is total. -/
theorem less_total : (t : ColumnType) → (a b : t.Value) → a = b ∨ t.Less a b ∨ t.Less b a
  | reference, a, b => by
    rw [← UInt64.toNat_inj]
    simp only [Less, UInt64.lt_iff_toNat_lt]
    omega
  | long, a, b => by
    rw [← Int64.toInt_inj]
    simp only [Less, Int64.lt_iff_toInt_lt]
    omega
  | string, a, b => by
    by_cases hab : a < b
    · exact .inr (.inl hab)
    · by_cases hba : b < a
      · exact .inr (.inr hba)
      · exact .inl (String.toList_inj.1 (Std.le_antisymm (Std.not_lt.1 hba) (Std.not_lt.1 hab)))
  | boolean, a, b => by
    change a = b ∨ a < b ∨ b < a
    revert a b
    decide

/-! ## Order -/

/-- The sign bit moves the negative numbers below the others. -/
theorem toNat_xor_signBit (n : UInt64) : (n ^^^ signBit).toNat = (n.toNat + 2 ^ 63) % 2 ^ 64 := by
  rw [UInt64.toNat_xor, show signBit.toNat = 2 ^ 63 from rfl]
  refine Nat.eq_of_testBit_eq fun i => ?_
  rw [Nat.testBit_xor, Nat.testBit_two_pow, Nat.testBit_mod_two_pow, Nat.add_comm]
  rcases Nat.lt_trichotomy i 63 with hlt | rfl | hgt
  · rw [Nat.testBit_two_pow_add_gt hlt, decide_eq_false (by omega), decide_eq_true (by omega), Bool.xor_false,
      Bool.true_and]
  · rw [Nat.testBit_two_pow_add_eq]
    simp
  · have hhigh : n.toNat.testBit i = false :=
      Nat.testBit_lt_two_pow (Nat.lt_of_lt_of_le n.toNat_lt (Nat.pow_le_pow_right (by decide) hgt))
    rw [hhigh, decide_eq_false (by omega), decide_eq_false (by omega)]
    rfl

theorem xor_signBit_lt {a b : Int64} (h : a < b) : a.toUInt64 ^^^ signBit < b.toUInt64 ^^^ signBit := by
  have hint : ∀ n : Int64, n.toInt =
      if 2 * n.toUInt64.toNat < 2 ^ 64 then (n.toUInt64.toNat : Int) else (n.toUInt64.toNat : Int) - 2 ^ 64 :=
    fun n => BitVec.toInt_eq_toNat_cond n.toBitVec
  have ha := a.toUInt64.toNat_lt
  have hb := b.toUInt64.toNat_lt
  rw [Int64.lt_iff_toInt_lt, hint, hint] at h
  rw [UInt64.lt_iff_toNat_lt, toNat_xor_signBit, toNat_xor_signBit]
  split at h <;> split at h <;> omega

/-- Escaping keeps the order of bytes. -/
theorem precedes_escapeByte {x y : UInt8} (h : x < y) : Precedes (escapeByte x) (escapeByte y) := by
  have hy : y ≠ 0 := fun hy => UInt8.not_lt_zero (hy ▸ h)
  rw [escapeByte, escapeByte, if_neg hy]
  by_cases hx : x = 0
  · rw [if_pos hx]
    split
    · exact .later 1 (.here (by decide) [] [])
    · next hy1 => exact .here (by grind) [1] []
  · rw [if_neg hx]
    have hy1 : y ≠ 1 := by grind
    rw [if_neg hy1]
    split
    · next hx1 => exact .here (hx1 ▸ h) [2] []
    · exact .here h [] []

theorem precedes_escape {a b : List UInt8} (h : Precedes a b) :
    Precedes (a.flatMap escapeByte) (b.flatMap escapeByte) := by
  induction h with
  | here h a b =>
    rw [List.flatMap_cons, List.flatMap_cons]
    exact (precedes_escapeByte h).append _ _
  | later x h ih =>
    rw [List.flatMap_cons, List.flatMap_cons]
    exact ih.append_left _

/-- The end of a string comes before all that may go on. -/
theorem precedes_of_end (b : UInt8) (rest : List UInt8) : Precedes [0] (escapeByte b ++ rest) := by
  unfold escapeByte
  split
  · exact .here (by decide) _ _
  split
  · exact .here (by decide) _ _
  · next hb _ => exact .here (UInt8.pos_iff_ne_zero.2 hb) _ _

theorem exists_encodeChar (c : Char) : ∃ b rest, Utf8.encodeChar c = b :: rest := by
  unfold Utf8.encodeChar
  dsimp only
  split
  · exact ⟨_, _, rfl⟩
  split
  · exact ⟨_, _, rfl⟩
  split
  · exact ⟨_, _, rfl⟩
  · exact ⟨_, _, rfl⟩

/-- Strings in order have escaped forms in order, also where one begins the other: the end of a string sorts first. -/
theorem precedes_chars {cs ds : List Char} (h : cs < ds) :
    Precedes ((Utf8.encodeChars cs).flatMap escapeByte ++ [0]) ((Utf8.encodeChars ds).flatMap escapeByte ++ [0]) := by
  induction cs generalizing ds with
  | nil =>
    cases ds with
    | nil => exact absurd h (List.lt_irrefl [])
    | cons d ds =>
      obtain ⟨b, rest, hd⟩ := exists_encodeChar d
      have hds : Utf8.encodeChars (d :: ds) = b :: (rest ++ Utf8.encodeChars ds) := by
        rw [Utf8.encodeChars, List.flatMap_cons, hd]
        rfl
      rw [hds, List.flatMap_cons, List.append_assoc]
      exact precedes_of_end b _
  | cons c cs ih =>
    cases ds with
    | nil => exact absurd h (List.not_lt_nil _)
    | cons d ds =>
      simp only [Utf8.encodeChars, List.flatMap_cons, List.flatMap_append, List.append_assoc]
      rcases List.cons_lt_cons_iff.1 h with hlt | ⟨rfl, hlt⟩
      · exact (precedes_escape (Utf8.precedes_encodeChar hlt)).append _ _
      · exact (ih hlt).append_left _

/-- The bytes of characters are in the order of the characters. -/
theorem encodeChars_lt {cs ds : List Char} (h : cs < ds) : Utf8.encodeChars cs < Utf8.encodeChars ds := by
  induction cs generalizing ds with
  | nil =>
    cases ds with
    | nil => exact absurd h (List.lt_irrefl [])
    | cons d ds =>
      obtain ⟨b, rest, hd⟩ := exists_encodeChar d
      rw [Utf8.encodeChars, Utf8.encodeChars, List.flatMap_nil, List.flatMap_cons, hd]
      exact List.Lex.nil
  | cons c cs ih =>
    cases ds with
    | nil => exact absurd h (List.not_lt_nil _)
    | cons d ds =>
      rw [Utf8.encodeChars, Utf8.encodeChars, List.flatMap_cons, List.flatMap_cons]
      rcases List.cons_lt_cons_iff.1 h with hlt | ⟨rfl, hlt⟩
      · exact ((Utf8.precedes_encodeChar hlt).append _ _).lt
      · exact KeyRange.append_lt_append_left _ (ih hlt)

/-- Strings sort as their bytes. -/
theorem string_less_iff {a b : String} : string.Less a b ↔ Utf8.encode a < Utf8.encode b := by
  have hmono : ∀ {a b : String}, a < b → Utf8.encode a < Utf8.encode b := fun h => encodeChars_lt h
  refine ⟨hmono, fun h => ?_⟩
  rcases string.less_total a b with rfl | hlt | hgt
  · exact absurd h (List.lt_irrefl _)
  · exact hlt
  · exact absurd h (Std.not_lt.2 (Std.le_of_lt (hmono hgt)))

theorem boolean_less_iff {a b : Bool} : boolean.Less a b ↔ a = false ∧ b = true := by
  change a < b ↔ _
  revert a b
  decide

theorem precedes_encode {t : ColumnType} {a b : t.Value} (h : t.Less a b) : Precedes (t.encode a) (t.encode b) := by
  cases t with
  | reference => exact BigEndian.precedes_encode64 h
  | long => exact BigEndian.precedes_encode64 (xor_signBit_lt h)
  | string => exact precedes_chars h
  | boolean =>
    obtain ⟨rfl, rfl⟩ := boolean_less_iff.1 h
    exact .here (by decide) [] []

/-! ## Decoding -/

theorem bytes_apply (a : List UInt8) (what : String) (rest : List UInt8) :
    Decoder.bytes a.length what (a ++ rest) = (.ok a, rest) := by
  have henough : ¬a.length + rest.length < a.length := by omega
  simp [Decoder.bytes, StoreM.bind_apply, StoreM.map_apply, henough, Except.map]

theorem uint64_apply (n : UInt64) (what : String) (rest : List UInt8) :
    Decoder.uint64 what (BigEndian.encode64 n ++ rest) = (.ok n, rest) := by
  have hbytes := bytes_apply (BigEndian.encode64 n) what rest
  rw [show (BigEndian.encode64 n).length = 8 from BigEndian.length_encode ..] at hbytes
  refine (StoreM.bind_ok hbytes).trans ?_
  rw [StoreM.pure_apply, BigEndian.ofNat_decode_encode64]

/-- What was escaped is read as it was, and what follows as if it stood alone. -/
theorem unescape_append (bytes rest : List UInt8) :
    unescape (bytes.flatMap escapeByte ++ rest) = (unescape rest).map fun (s, r) => (bytes ++ s, r) := by
  induction bytes with
  | nil =>
    rw [List.flatMap_nil, List.nil_append]
    cases unescape rest <;> rfl
  | cons b bytes ih =>
    have hb : unescape (escapeByte b ++ (bytes.flatMap escapeByte ++ rest)) =
        (unescape (bytes.flatMap escapeByte ++ rest)).map fun (s, r) => (b :: s, r) := by
      rw [escapeByte]
      by_cases h0 : b = 0
      · rw [if_pos h0, h0, List.cons_append, List.cons_append, List.nil_append, unescape]
      · by_cases h1 : b = 1
        · rw [if_neg h0, if_pos h1, h1, List.cons_append, List.cons_append, List.nil_append, unescape]
        · rw [if_neg h0, if_neg h1, List.cons_append, List.nil_append, unescape]
          all_goals grind
    rw [List.flatMap_cons, List.append_assoc, hb, ih]
    cases unescape rest <;> rfl

theorem unescape_escape (bytes rest : List UInt8) :
    unescape (bytes.flatMap escapeByte ++ 0 :: rest) = .ok (bytes, rest) := by
  rw [unescape_append, unescape]
  simp [Except.map]

/-- What is read back is the value, with whatever follows it left. -/
theorem decode_apply (t : ColumnType) (v : t.Value) (rest : List UInt8) :
    t.decode (t.encode v ++ rest) = (.ok v, rest) := by
  cases t with
  | reference => exact uint64_apply v "object id" rest
  | long =>
    have hsign : ((v.toUInt64 ^^^ signBit) ^^^ signBit).toInt64 = v := by
      rw [UInt64.xor_assoc, UInt64.xor_self, UInt64.xor_zero, Int64.toInt64_toUInt64]
    refine (StoreM.bind_ok (uint64_apply (v.toUInt64 ^^^ signBit) "long" rest)).trans ?_
    rw [StoreM.pure_apply, hsign]
  | string =>
    have htext : Utf8.decode (Utf8.encode v) = .ok v := by
      rw [Utf8.decode, Utf8.encode, Utf8.decodeChars_encodeChars]
      exact congrArg Except.ok String.ofList_toList
    have hbytes := unescape_escape (Utf8.encode v) rest
    rw [encode, List.append_assoc, List.singleton_append]
    refine (StoreM.bind_ok (StoreM.get_apply _)).trans ?_
    rw [hbytes]
    refine (StoreM.bind_ok (StoreM.set_apply _ _)).trans ?_
    rw [htext]
    rfl
  | boolean => cases v <;> exact (StoreM.bind_ok (bytes_apply [_] "boolean" rest)).trans rfl

end ColumnType

namespace Values

/-- The order of the values of some columns: the first column in which they differ decides. -/
def Less : (ts : List ColumnType) → Values ts → Values ts → Prop
  | [], _, _ => False
  | t :: ts, (a, as), (b, bs) => t.Less a b ∨ a = b ∧ Less ts as bs

/-- The order of the values of some columns is total. -/
theorem less_total : (ts : List ColumnType) → (a b : Values ts) → a = b ∨ Less ts a b ∨ Less ts b a
  | [], (), () => .inl rfl
  | t :: ts, (a, as), (b, bs) => by
    rcases t.less_total a b with rfl | hlt | hgt
    · rcases less_total ts as bs with rfl | hlt | hgt
      · exact .inl rfl
      · exact .inr (.inl (.inr ⟨rfl, hlt⟩))
      · exact .inr (.inr (.inr ⟨rfl, hgt⟩))
    · exact .inr (.inl (.inl hlt))
    · exact .inr (.inr (.inl hgt))

theorem precedes_encode : {ts : List ColumnType} → {a b : Values ts} → Less ts a b →
    Precedes (encode ts a) (encode ts b)
  | t :: ts, (a, as), (b, bs), h => by
    rw [encode, encode]
    rcases h with hlt | ⟨rfl, hlt⟩
    · exact (ColumnType.precedes_encode hlt).append _ _
    · exact (precedes_encode hlt).append_left _

/-- No encoding of values is the beginning of that of others, whatever comes behind them. -/
theorem encode_prefix_iff {ts : List ColumnType} {a b : Values ts} {rest : List UInt8} :
    encode ts a <+: encode ts b ++ rest ↔ a = b := by
  refine ⟨fun h => ?_, fun h => h ▸ List.prefix_append ..⟩
  obtain ⟨more, hmore⟩ := h
  rcases less_total ts a b with he | hlt | hgt
  · exact he
  · exact absurd hmore ((precedes_encode hlt).append_ne _ _)
  · exact absurd hmore.symm ((precedes_encode hgt).append_ne _ _)

theorem decode_apply : (ts : List ColumnType) → (v : Values ts) → (rest : List UInt8) →
    decode ts (encode ts v ++ rest) = (.ok v, rest)
  | [], (), rest => rfl
  | t :: ts, (v, vs), rest => by
    rw [encode, List.append_assoc]
    refine (StoreM.bind_ok (t.decode_apply v _)).trans ?_
    exact (StoreM.bind_ok (decode_apply ts vs rest)).trans rfl

end Values

end Keyspace.Index
