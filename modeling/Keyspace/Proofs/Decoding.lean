import Keyspace.Proofs.TypedIndex
import Keyspace.Proofs.Utf8

/-!
What the keys of an index are. A key is decoded to the values and the object that it was made of, and nothing else is
decoded: of any other bytes, the error tells what is wrong with them, in the first column that no value stands in.
-/
namespace Keyspace.Index

namespace ColumnType

inductive Flaw : ColumnType → List UInt8 → Corruption → Prop
  | shortReference {input : List UInt8} (h : input.length < 8) :
    Flaw reference input (.truncated "object id" 8 input.length)
  | shortLong {input : List UInt8} (h : input.length < 8) : Flaw long input (.truncated "long" 8 input.length)
  /-- The bytes of a string go on to the end. -/
  | unterminated (bytes : List UInt8) : Flaw string (bytes.flatMap escapeByte) .unterminatedString
  /-- An escape is followed by none of the bytes that may follow it. -/
  | escape (bytes : List UInt8) {rest : List UInt8} (h₁ : rest.head? ≠ some 1) (h₂ : rest.head? ≠ some 2) :
    Flaw string (bytes.flatMap escapeByte ++ 1 :: rest) (.invalidEscape rest.head?)
  /-- The bytes of a string are not those of a text. -/
  | text {bytes : List UInt8} {fault : Utf8.Fault} (h : Utf8.decode bytes = .error fault) (rest : List UInt8) :
    Flaw string (bytes.flatMap escapeByte ++ 0 :: rest) (.invalidText fault)
  | noBoolean : Flaw boolean [] (.truncated "boolean" 1 0)
  | badBoolean {b : UInt8} (h₀ : b ≠ 0) (h₁ : b ≠ 1) (rest : List UInt8) :
    Flaw boolean (b :: rest) (.invalidBoolean b)

variable {t : ColumnType} {input : List UInt8} {why : Corruption}

theorem bytes_short {count : Nat} (what : String) (h : input.length < count) :
    Decoder.bytes count what input = (.error (.corrupt (.truncated what count input.length)), input) := by
  simp [Decoder.bytes, StoreM.bind_apply, h]

theorem uint64_short (what : String) (h : input.length < 8) :
    Decoder.uint64 what input = (.error (.corrupt (.truncated what 8 input.length)), input) :=
  StoreM.bind_error (bytes_short what h)

/-- Eight bytes are always those of a number. -/
theorem exists_encode64 (h : 8 ≤ input.length) : ∃ n rest, input = BigEndian.encode64 n ++ rest := by
  refine ⟨UInt64.ofNat (BigEndian.decode (input.take 8)), input.drop 8, ?_⟩
  rw [BigEndian.encode64_ofNat_decode (by rw [List.length_take, Nat.min_eq_left h]), List.take_append_drop]

theorem unescape_end (bytes : List UInt8) : unescape (bytes.flatMap escapeByte) = .error .unterminatedString := by
  have happend := unescape_append bytes []
  rwa [List.append_nil] at happend

theorem unescape_bad (bytes : List UInt8) {rest : List UInt8} (h₁ : rest.head? ≠ some 1) (h₂ : rest.head? ≠ some 2) :
    unescape (bytes.flatMap escapeByte ++ 1 :: rest) = .error (.invalidEscape rest.head?) := by
  rw [unescape_append]
  cases rest with
  | nil => rfl
  | cons b rest =>
    rw [unescape]
    · rfl
    all_goals simp_all

/-- Bytes are escaped up to their end, the end of a string, or an escape that is none. -/
theorem exists_escaped (input : List UInt8) : ∃ bytes rest : List UInt8, input = bytes.flatMap escapeByte ++ rest ∧
    (rest = [] ∨ (∃ more, rest = 0 :: more) ∨
      ∃ more : List UInt8, rest = 1 :: more ∧ more.head? ≠ some 1 ∧ more.head? ≠ some 2) := by
  induction input using unescape.induct with
  | case1 => exact ⟨[], [], rfl, .inl rfl⟩
  | case2 rest => exact ⟨[], 0 :: rest, rfl, .inr (.inl ⟨rest, rfl⟩)⟩
  | case3 rest ih =>
    obtain ⟨bytes, more, rfl, hmore⟩ := ih
    exact ⟨0 :: bytes, more, rfl, hmore⟩
  | case4 rest ih =>
    obtain ⟨bytes, more, rfl, hmore⟩ := ih
    exact ⟨1 :: bytes, more, rfl, hmore⟩
  | case5 rest h₁ h₂ =>
    refine ⟨[], 1 :: rest, rfl, .inr (.inr ⟨rest, rfl, fun h => ?_, fun h => ?_⟩)⟩
    · obtain ⟨more, rfl⟩ := List.head?_eq_some_iff.1 h
      exact h₁ more rfl
    · obtain ⟨more, rfl⟩ := List.head?_eq_some_iff.1 h
      exact h₂ more rfl
  | case6 b rest h₀ h₁ h₂ h₃ ih =>
    obtain ⟨bytes, more, rfl, hmore⟩ := ih
    have hplain : escapeByte b = [b] := by rw [escapeByte, if_neg h₀, if_neg h₃]
    refine ⟨b :: bytes, more, ?_, hmore⟩
    rw [List.flatMap_cons, hplain]
    rfl

/-- The error tells the flaw. -/
theorem Flaw.decode (h : t.Flaw input why) : (t.decode input).1 = .error (.corrupt why) := by
  cases h with
  | shortReference h => rw [ColumnType.decode, uint64_short _ h]
  | shortLong h => rw [ColumnType.decode, StoreM.bind_error (uint64_short _ h)]
  | unterminated bytes =>
    rw [ColumnType.decode, StoreM.bind_ok (StoreM.get_apply _), unescape_end]
    rfl
  | escape bytes h₁ h₂ =>
    rw [ColumnType.decode, StoreM.bind_ok (StoreM.get_apply _), unescape_bad bytes h₁ h₂]
    rfl
  | text h rest =>
    rw [ColumnType.decode, StoreM.bind_ok (StoreM.get_apply _), unescape_escape]
    dsimp only
    rw [StoreM.bind_ok (StoreM.set_apply _ _), h]
    rfl
  | noBoolean =>
    rw [ColumnType.decode, StoreM.bind_error (bytes_short "boolean" Nat.one_pos)]
    rfl
  | @badBoolean b h₀ h₁ rest =>
    have hbyte : Decoder.bytes 1 "boolean" (b :: rest) = (.ok [b], rest) := bytes_apply [b] "boolean" rest
    rw [ColumnType.decode, StoreM.bind_ok hbyte]
    simp [h₀, h₁]

/-- Bytes begin with a value, or they have a flaw. -/
theorem value_or_flaw (t : ColumnType) (input : List UInt8) :
    (∃ v rest, input = t.encode v ++ rest) ∨ ∃ why, t.Flaw input why := by
  cases t with
  | reference =>
    by_cases h : input.length < 8
    · exact .inr ⟨_, .shortReference h⟩
    · exact .inl (exists_encode64 (Nat.not_lt.1 h))
  | long =>
    by_cases h : input.length < 8
    · exact .inr ⟨_, .shortLong h⟩
    · obtain ⟨n, rest, rfl⟩ := exists_encode64 (Nat.not_lt.1 h)
      have hsign : (n ^^^ signBit).toInt64.toUInt64 ^^^ signBit = n := by
        rw [UInt64.toUInt64_toInt64, UInt64.xor_assoc, UInt64.xor_self, UInt64.xor_zero]
      exact .inl ⟨(n ^^^ signBit).toInt64, rest, by rw [encode, hsign]⟩
  | string =>
    obtain ⟨bytes, rest, rfl, rfl | ⟨rest, rfl⟩ | ⟨rest, rfl, h₁, h₂⟩⟩ := exists_escaped input
    · rw [List.append_nil]
      exact .inr ⟨_, .unterminated bytes⟩
    · cases htext : Utf8.decode bytes with
      | error fault => exact .inr ⟨_, .text htext rest⟩
      | ok s =>
        obtain rfl := Utf8.decode_eq_ok_iff.1 htext
        exact .inl ⟨s, rest, by rw [encode, List.append_assoc, List.singleton_append]⟩
    · exact .inr ⟨_, .escape bytes h₁ h₂⟩
  | boolean =>
    cases input with
    | nil => exact .inr ⟨_, .noBoolean⟩
    | cons b rest =>
      by_cases h₀ : b = 0
      · exact .inl ⟨false, rest, by rw [h₀]; rfl⟩
      · by_cases h₁ : b = 1
        · exact .inl ⟨true, rest, by rw [h₁]; rfl⟩
        · exact .inr ⟨_, .badBoolean h₀ h₁ rest⟩

/-- Every encoding shows where it ends and is the only one of its value. Bytes are read as a value with some bytes left
over just where they are the encoding of the value and those bytes behind it; reading fails just where the bytes have a
flaw, with this flaw as the corruption; and the bytes with a flaw are just those that begin with no encoding. -/
theorem decode_inverts_encode (t : ColumnType) (input : List UInt8) :
    (∀ v rest, t.decode input = (.ok v, rest) ↔ input = t.encode v ++ rest) ∧
    (∀ why, (t.decode input).1 = .error why ↔ ∃ c, why = .corrupt c ∧ t.Flaw input c) ∧
    ((∃ c, t.Flaw input c) ↔ ∀ v rest, input ≠ t.encode v ++ rest) := by
  rcases t.value_or_flaw input with ⟨v, rest, rfl⟩ | ⟨c, h⟩
  · have hdecode := t.decode_apply v rest
    have hnone : ∀ c, ¬t.Flaw (t.encode v ++ rest) c := fun c h => by
      have hfails := h.decode
      rw [hdecode] at hfails
      cases hfails
    refine ⟨fun w others => ⟨fun h => ?_, fun h => ?_⟩, fun why => ⟨fun h => ?_, fun ⟨c, _, h⟩ => absurd h (hnone c)⟩,
      ⟨fun ⟨c, h⟩ => absurd h (hnone c), fun h => absurd rfl (h v rest)⟩⟩
    · rw [hdecode] at h
      cases h
      rfl
    · rw [h, decode_apply]
    · rw [hdecode] at h
      cases h
  · have hdecode := h.decode
    have hnone : ∀ v rest, input ≠ t.encode v ++ rest := fun v rest hinput => by
      rw [hinput, decode_apply] at hdecode
      cases hdecode
    refine ⟨fun v rest => ⟨fun h => ?_, fun h => absurd h (hnone v rest)⟩, fun why => ⟨fun h' => ?_, ?_⟩,
      iff_of_true ⟨c, h⟩ hnone⟩
    · rw [h] at hdecode
      cases hdecode
    · rw [hdecode] at h'
      exact ⟨c, (Except.error.inj h').symm, h⟩
    · rintro ⟨c', rfl, h'⟩
      exact h'.decode

end ColumnType

namespace Values

/-- What can be wrong with bytes that do not begin with values of some columns: a flaw where the value of some column
should stand, behind those of the columns before it. -/
inductive Flaw : List ColumnType → List UInt8 → Corruption → Prop
  | here {t : ColumnType} {ts : List ColumnType} {input : List UInt8} {why : Corruption} (h : t.Flaw input why) :
    Flaw (t :: ts) input why
  | later {t : ColumnType} {ts : List ColumnType} {input : List UInt8} {why : Corruption} (v : t.Value)
      (h : Flaw ts input why) : Flaw (t :: ts) (t.encode v ++ input) why

variable {ts : List ColumnType} {input : List UInt8} {why : Corruption}

theorem Flaw.decode (h : Flaw ts input why) : (Values.decode ts input).1 = .error (.corrupt why) := by
  induction h with
  | here h => exact StoreM.bind_fst_error h.decode
  | @later t ts input why v h ih =>
    rw [Values.decode, StoreM.bind_ok (t.decode_apply v input)]
    exact StoreM.bind_fst_error ih

theorem value_or_flaw : (ts : List ColumnType) → (input : List UInt8) →
    (∃ v rest, input = encode ts v ++ rest) ∨ ∃ why, Flaw ts input why
  | [], input => .inl ⟨(), input, rfl⟩
  | t :: ts, input => by
    rcases t.value_or_flaw input with ⟨v, rest, rfl⟩ | ⟨why, h⟩
    · rcases value_or_flaw ts rest with ⟨vs, rest, rfl⟩ | ⟨why, h⟩
      · exact .inl ⟨(v, vs), rest, by rw [encode, List.append_assoc]⟩
      · exact .inr ⟨why, .later v h⟩
    · exact .inr ⟨why, .here h⟩

end Values

namespace TypedIndex

variable {columns : List ColumnType} {i : TypedIndex columns} {k : Key} {why : Corruption}

inductive Flaw (i : TypedIndex columns) : Key → Corruption → Prop
  | foreign {k : Key} (h : ¬i.info.keyPrefix <+: k) : Flaw i k (.foreignKey i.info.describe)
  | values {input : List UInt8} {why : Corruption} (h : Values.Flaw columns input why) :
    Flaw i (i.info.keyPrefix ++ input) why
  | object (values : Values columns) {input : List UInt8} {why : Corruption} (h : ColumnType.reference.Flaw input why) :
    Flaw i (i.valuesPrefix values ++ input) why
  | trailing (values : Values columns) (id : ObjectId) {rest : List UInt8} (h : rest ≠ []) :
    Flaw i (i.key values id ++ rest) (.trailingBytes rest.length i.info.describe)

theorem decodeKey_append (i : TypedIndex columns) (input : List UInt8) : i.decodeKey (i.info.keyPrefix ++ input) =
    match (decodeEntry : Decoder (Values columns × ObjectId)) input with
    | (.error why, _) => .error why
    | (.ok entry, []) => .ok entry
    | (.ok _, rest) => .error (.corrupt (.trailingBytes rest.length i.info.describe)) := by
  have hdrop : (i.info.keyPrefix ++ input).drop i.info.keyPrefix.length = input := List.drop_left
  rw [decodeKey, if_pos (List.isPrefixOf_iff_prefix.2 (List.prefix_append ..))]
  exact hdrop ▸ rfl

theorem decodeKey_error {input : List UInt8}
    (h : ((decodeEntry : Decoder (Values columns × ObjectId)) input).1 = .error (.corrupt why)) :
    i.decodeKey (i.info.keyPrefix ++ input) = .error (.corrupt why) := by
  rw [decodeKey_append]
  rcases hentry : (decodeEntry : Decoder (Values columns × ObjectId)) input with ⟨r, s⟩
  rw [hentry] at h
  obtain rfl : r = _ := h
  rfl

/-- A key with a flaw is refused for that flaw. -/
theorem Flaw.decodeKey (h : i.Flaw k why) : i.decodeKey k = .error (.corrupt why) := by
  cases h with
  | foreign h => rw [TypedIndex.decodeKey, if_neg (mt List.isPrefixOf_iff_prefix.1 h)]
  | values h => exact decodeKey_error (StoreM.bind_fst_error h.decode)
  | @object values input _ h =>
    rw [valuesPrefix, List.append_assoc]
    refine decodeKey_error ?_
    rw [decodeEntry, StoreM.bind_ok (Values.decode_apply columns values input)]
    exact StoreM.bind_fst_error h.decode
  | @trailing values id rest h =>
    obtain ⟨b, more, rfl⟩ := List.exists_cons_of_ne_nil h
    rw [key_eq, List.append_assoc, List.append_assoc, decodeKey_append, decodeEntry_apply]

/-- Bytes are a key of an index, or they have a flaw. -/
theorem key_or_flaw (i : TypedIndex columns) (k : Key) : (∃ values id, k = i.key values id) ∨ ∃ why, i.Flaw k why := by
  by_cases hprefix : i.info.keyPrefix <+: k
  · obtain ⟨input, rfl⟩ := hprefix
    rcases Values.value_or_flaw columns input with ⟨values, rest, rfl⟩ | ⟨why, h⟩
    · rw [← List.append_assoc, ← valuesPrefix]
      rcases ColumnType.reference.value_or_flaw rest with ⟨id, rest, rfl⟩ | ⟨why, h⟩
      · cases rest with
        | nil => exact .inl ⟨values, id, by rw [List.append_nil]; rfl⟩
        | cons b rest =>
          rw [← List.append_assoc]
          exact .inr ⟨_, .trailing values id (List.cons_ne_nil b rest)⟩
      · exact .inr ⟨why, .object values h⟩
    · exact .inr ⟨why, .values h⟩
  · exact .inr ⟨_, .foreign hprefix⟩

/-- Decoding inverts the making of keys. Bytes are decoded to some values and an object just where they are the key of
these; decoding fails just where the bytes have a flaw, with this flaw as the corruption; and the bytes with a flaw are
just those that are no key. -/
theorem decodeKey_inverts_key (i : TypedIndex columns) (k : Key) :
    (∀ values id, i.decodeKey k = .ok (values, id) ↔ k = i.key values id) ∧
    (∀ why, i.decodeKey k = .error why ↔ ∃ c, why = .corrupt c ∧ i.Flaw k c) ∧
    ((∃ c, i.Flaw k c) ↔ ∀ values id, k ≠ i.key values id) := by
  rcases i.key_or_flaw k with ⟨values, id, rfl⟩ | ⟨c, h⟩
  · have hdecode := i.decodeKey_key values id
    have hnone : ∀ c, ¬i.Flaw (i.key values id) c := fun c h => by simp [h.decodeKey] at hdecode
    refine ⟨fun others other => ?_, fun why => ?_, ?_⟩
    · rw [hdecode]
      exact ⟨fun h => by cases h; rfl, fun h => congrArg Except.ok (eq_of_key_eq h)⟩
    · rw [hdecode]
      exact ⟨fun h => (nomatch h), fun ⟨c, _, h⟩ => absurd h (hnone c)⟩
    · exact ⟨fun ⟨c, h⟩ => absurd h (hnone c), fun h => absurd rfl (h values id)⟩
  · have hdecode := h.decodeKey
    have hnone : ∀ values id, k ≠ i.key values id := fun values id hk => by
      rw [hk, decodeKey_key] at hdecode
      cases hdecode
    refine ⟨fun values id => ?_, fun why => ?_, iff_of_true ⟨c, h⟩ hnone⟩
    · rw [hdecode]
      exact iff_of_false (fun h => nomatch h) (hnone values id)
    · rw [hdecode]
      refine ⟨fun hwhy => ⟨c, (Except.error.inj hwhy).symm, h⟩, fun ⟨d, hwhy, hd⟩ => ?_⟩
      rw [← hdecode, hd.decodeKey, hwhy]

end TypedIndex

end Keyspace.Index
