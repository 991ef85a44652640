import Keyspace.Text.Utf8

/-!
Decoding gives back the characters that were encoded, and it accepts no other bytes for them. A sequence of bytes is
read by the range of its first byte, so each length is a case of its own; the narrowed ranges of second bytes keep out
just the overlong forms, the surrogates and the numbers above the last character.
-/
namespace Keyspace.Utf8

variable {n : Nat}

theorem toNat_byte (h : n < 256) : (UInt8.ofNat n).toNat = n := UInt8.toNat_ofNat_of_lt' h

theorem byte_lt (h : n < 256) {b : UInt8} : UInt8.ofNat n < b ↔ n < b.toNat := by
  rw [UInt8.lt_iff_toNat_lt, toNat_byte h]

theorem le_byte (h : n < 256) {b : UInt8} : b ≤ UInt8.ofNat n ↔ b.toNat ≤ n := by
  rw [UInt8.le_iff_toNat_le, toNat_byte h]

theorem byte_eq (h : n < 256) {b : UInt8} : UInt8.ofNat n = b ↔ n = b.toNat := by
  rw [← UInt8.toNat_inj, toNat_byte h]

theorem tail?_byte (h : n < 64) : tail? (UInt8.ofNat (0x80 + n)) = some n := by
  have hn : 0x80 + n < 256 := by omega
  have hrange : 0x80 ≤ UInt8.ofNat (0x80 + n) ∧ UInt8.ofNat (0x80 + n) < 0xC0 := by
    simp only [le_byte hn, byte_lt hn, UInt8.reduceToNat]
    omega
  rw [tail?, if_pos hrange, toNat_byte hn, Nat.add_sub_cancel_left]

theorem second?_byte {m : Nat} (hm : m < 256) (h : n < 64) (h3 : m = 0xE0 → 32 ≤ n) (h3' : m = 0xED → n < 32)
    (h4 : m = 0xF0 → 16 ≤ n) (h4' : m = 0xF4 → n < 16) :
    second? (UInt8.ofNat m) (UInt8.ofNat (0x80 + n)) = some n := by
  have hn : 0x80 + n < 256 := by omega
  have hrange : ¬(UInt8.ofNat m = 0xE0 ∧ UInt8.ofNat (0x80 + n) < 0xA0 ∨
      UInt8.ofNat m = 0xED ∧ 0xA0 ≤ UInt8.ofNat (0x80 + n) ∨
      UInt8.ofNat m = 0xF0 ∧ UInt8.ofNat (0x80 + n) < 0x90 ∨
      UInt8.ofNat m = 0xF4 ∧ 0x90 ≤ UInt8.ofNat (0x80 + n)) := by
    simp only [le_byte hn, byte_lt hn, byte_eq hm, UInt8.reduceToNat]
    omega
  rw [second?, if_neg hrange, tail?_byte h]

/-! ## Sequences of each length -/

section Sequences

variable (index : Nat) (rest : List UInt8)

theorem decodeFrom_one (h : n < 0x80) :
    decodeFrom index (UInt8.ofNat n :: rest) = (decodeFrom (index + 1) rest).map (Char.ofNat n :: ·) := by
  have hb : n < 256 := by omega
  have hlt : UInt8.ofNat n < 0x80 := by
    rw [byte_lt hb]
    exact h
  rw [decodeFrom.eq_def]
  simp only [if_pos hlt, toNat_byte hb]

theorem decodeFrom_two (h : 0x80 ≤ n) (h' : n < 0x800) :
    decodeFrom index (UInt8.ofNat (0xC0 + n / 64) :: UInt8.ofNat (0x80 + n % 64) :: rest) =
      (decodeFrom (index + 2) rest).map (Char.ofNat n :: ·) := by
  have hb : 0xC0 + n / 64 < 256 := by omega
  have hrange : ¬UInt8.ofNat (0xC0 + n / 64) < 0x80 ∧
      ¬(UInt8.ofNat (0xC0 + n / 64) < 0xC2 ∨ 0xF5 ≤ UInt8.ofNat (0xC0 + n / 64)) ∧
      UInt8.ofNat (0xC0 + n / 64) < 0xE0 := by
    simp only [byte_lt hb, le_byte hb, UInt8.reduceToNat]
    omega
  have hsecond := second?_byte hb (n := n % 64) (by omega) (by omega) (by omega) (by omega) (by omega)
  rw [decodeFrom, if_neg hrange.1, if_neg hrange.2.1]
  simp only [hsecond, if_pos hrange.2.2, toNat_byte hb, Nat.add_sub_cancel_left]
  rw [show 64 * (n / 64) + n % 64 = n by omega]

theorem decodeFrom_three (h : 0x800 ≤ n) (h' : n < 0x10000) (hvalid : n < 0xD800 ∨ 0xDFFF < n) :
    decodeFrom index (UInt8.ofNat (0xE0 + n / 4096) :: UInt8.ofNat (0x80 + n / 64 % 64) ::
        UInt8.ofNat (0x80 + n % 64) :: rest) =
      (decodeFrom (index + 3) rest).map (Char.ofNat n :: ·) := by
  have hb : 0xE0 + n / 4096 < 256 := by omega
  have hrange : ¬UInt8.ofNat (0xE0 + n / 4096) < 0x80 ∧
      ¬(UInt8.ofNat (0xE0 + n / 4096) < 0xC2 ∨ 0xF5 ≤ UInt8.ofNat (0xE0 + n / 4096)) ∧
      ¬UInt8.ofNat (0xE0 + n / 4096) < 0xE0 ∧ UInt8.ofNat (0xE0 + n / 4096) < 0xF0 := by
    simp only [byte_lt hb, le_byte hb, UInt8.reduceToNat]
    omega
  have hsecond := second?_byte hb (n := n / 64 % 64) (by omega) (by omega) (by omega) (by omega) (by omega)
  have htail := tail?_byte (n := n % 64) (by omega)
  rw [decodeFrom, if_neg hrange.1, if_neg hrange.2.1]
  simp only [hsecond, htail, if_neg hrange.2.2.1, if_pos hrange.2.2.2, toNat_byte hb,
    Nat.add_sub_cancel_left]
  rw [show 4096 * (n / 4096) + 64 * (n / 64 % 64) + n % 64 = n by omega]

theorem decodeFrom_four (h : 0x10000 ≤ n) (h' : n < 0x110000) :
    decodeFrom index (UInt8.ofNat (0xF0 + n / 262144) :: UInt8.ofNat (0x80 + n / 4096 % 64) ::
        UInt8.ofNat (0x80 + n / 64 % 64) :: UInt8.ofNat (0x80 + n % 64) :: rest) =
      (decodeFrom (index + 4) rest).map (Char.ofNat n :: ·) := by
  have hb : 0xF0 + n / 262144 < 256 := by omega
  have hrange : ¬UInt8.ofNat (0xF0 + n / 262144) < 0x80 ∧
      ¬(UInt8.ofNat (0xF0 + n / 262144) < 0xC2 ∨ 0xF5 ≤ UInt8.ofNat (0xF0 + n / 262144)) ∧
      ¬UInt8.ofNat (0xF0 + n / 262144) < 0xE0 ∧ ¬UInt8.ofNat (0xF0 + n / 262144) < 0xF0 := by
    simp only [byte_lt hb, le_byte hb, UInt8.reduceToNat]
    omega
  have hsecond := second?_byte hb (n := n / 4096 % 64) (by omega) (by omega) (by omega) (by omega) (by omega)
  have htail := tail?_byte (n := n / 64 % 64) (by omega)
  have hlast := tail?_byte (n := n % 64) (by omega)
  rw [decodeFrom, if_neg hrange.1, if_neg hrange.2.1]
  simp only [hsecond, htail, hlast, if_neg hrange.2.2.1, if_neg hrange.2.2.2, toNat_byte hb,
    Nat.add_sub_cancel_left]
  rw [show 262144 * (n / 262144) + 4096 * (n / 4096 % 64) + 64 * (n / 64 % 64) + n % 64 = n by omega]

end Sequences

/-- A character's bytes are read back as this character. -/
theorem decodeFrom_encodeChar (c : Char) (index : Nat) (rest : List UInt8) : ∃ index',
    decodeFrom index (encodeChar c ++ rest) = (decodeFrom index' rest).map (c :: ·) := by
  obtain ⟨n, hn⟩ : ∃ n, c.toNat = n := ⟨_, rfl⟩
  have hvalid : n < 0xD800 ∨ 0xDFFF < n ∧ n < 0x110000 := hn ▸ c.valid
  have hchar : c = Char.ofNat n := by rw [← hn, Char.ofNat_toNat]
  simp only [encodeChar, hn]
  rw [hchar]
  split
  · exact ⟨_, decodeFrom_one index rest (by omega)⟩
  split
  · exact ⟨_, decodeFrom_two index rest (by omega) (by omega)⟩
  split
  · exact ⟨_, decodeFrom_three index rest (by omega) (by omega) (by omega)⟩
  · exact ⟨_, decodeFrom_four index rest (by omega) (by omega)⟩

theorem decodeFrom_encodeChars (cs : List Char) (index : Nat) :
    decodeFrom index (encodeChars cs) = .ok cs := by
  induction cs generalizing index with
  | nil => rw [encodeChars, List.flatMap_nil, decodeFrom]
  | cons c cs ih =>
    obtain ⟨index', h⟩ := decodeFrom_encodeChar c index (encodeChars cs)
    rw [encodeChars, List.flatMap_cons, ← encodeChars, h, ih]
    rfl

theorem decodeChars_encodeChars (cs : List Char) : decodeChars (encodeChars cs) = .ok cs :=
  decodeFrom_encodeChars cs 0

theorem encode_inj {s t : String} : encode s = encode t ↔ s = t := by
  refine ⟨fun h => ?_, congrArg encode⟩
  have hchars : (.ok s.toList : Except Fault (List Char)) = .ok t.toList := by
    rw [← decodeChars_encodeChars, ← decodeChars_encodeChars, ← encode, ← encode, h]
  exact String.toList_inj.1 (Except.ok.inj hchars)

/-! ## Bytes that are accepted -/

theorem toNat_ofNat (h : n < 0xD800 ∨ 0xDFFF < n ∧ n < 0x110000) : (Char.ofNat n).toNat = n := by
  have hvalid : n.isValidChar := h
  rw [Char.ofNat, dif_pos hvalid]
  rfl

/-- A byte that continues a sequence is made of its six bits. -/
theorem eq_of_tail? {b : UInt8} {z : Nat} (h : tail? b = some z) : z < 64 ∧ b = UInt8.ofNat (0x80 + z) := by
  rw [tail?] at h
  split at h
  · next hrange =>
    obtain rfl := Option.some.inj h
    simp only [UInt8.le_iff_toNat_le, UInt8.lt_iff_toNat_lt, UInt8.reduceToNat] at hrange
    have hsum : 0x80 + (b.toNat - 0x80) = b.toNat := by omega
    rw [hsum, UInt8.ofNat_toNat]
    exact ⟨by omega, rfl⟩
  · exact absurd h (by simp)

theorem eq_of_second? {b c : UInt8} {y : Nat} (h : second? b c = some y) :
    y < 64 ∧ c = UInt8.ofNat (0x80 + y) ∧ (b.toNat = 0xE0 → 32 ≤ y) ∧ (b.toNat = 0xED → y < 32) ∧
      (b.toNat = 0xF0 → 16 ≤ y) ∧ (b.toNat = 0xF4 → y < 16) := by
  rw [second?] at h
  split at h
  · exact absurd h (by simp)
  · next hrange =>
    obtain ⟨hy, rfl⟩ := eq_of_tail? h
    have hn : 0x80 + y < 256 := by omega
    simp only [← UInt8.toNat_inj, byte_lt hn, le_byte hn, UInt8.reduceToNat] at hrange
    exact ⟨hy, rfl, by omega, by omega, by omega, by omega⟩

/-- A first byte is made of the bits above those of the bytes behind it. -/
theorem byte_eq_add {b : UInt8} {k : Nat} (h : k ≤ b.toNat) : UInt8.ofNat (k + (b.toNat - k)) = b := by
  rw [Nat.add_sub_cancel' h, UInt8.ofNat_toNat]

theorem encodeChar_one {b : UInt8} (h : b < 0x80) : encodeChar (Char.ofNat b.toNat) = [b] := by
  simp only [UInt8.lt_iff_toNat_lt, UInt8.reduceToNat] at h
  rw [encodeChar, toNat_ofNat (by omega), if_pos h, UInt8.ofNat_toNat]

theorem encodeChar_two {b c : UInt8} {y : Nat} (hb : 0xC2 ≤ b) (hb' : b < 0xE0) (hc : second? b c = some y) :
    encodeChar (Char.ofNat (64 * (b.toNat - 0xC0) + y)) = [b, c] := by
  obtain ⟨hy, rfl, -⟩ := eq_of_second? hc
  simp only [UInt8.le_iff_toNat_le, UInt8.lt_iff_toNat_lt, UInt8.reduceToNat] at hb hb'
  obtain ⟨n, hn⟩ : ∃ n, 64 * (b.toNat - 0xC0) + y = n := ⟨_, rfl⟩
  have hhigh : n / 64 = b.toNat - 0xC0 := by omega
  have hlow : n % 64 = y := by omega
  rw [hn, encodeChar, toNat_ofNat (by omega), if_neg (by omega), if_pos (by omega), hhigh, hlow, byte_eq_add (by omega)]

theorem encodeChar_three {b c d : UInt8} {y z : Nat} (hb : 0xE0 ≤ b) (hb' : b < 0xF0) (hc : second? b c = some y)
    (hd : tail? d = some z) : encodeChar (Char.ofNat (4096 * (b.toNat - 0xE0) + 64 * y + z)) = [b, c, d] := by
  obtain ⟨hy, rfl, hover, hsurrogate, -⟩ := eq_of_second? hc
  obtain ⟨hz, rfl⟩ := eq_of_tail? hd
  simp only [UInt8.le_iff_toNat_le, UInt8.lt_iff_toNat_lt, UInt8.reduceToNat] at hb hb'
  obtain ⟨n, hn⟩ : ∃ n, 4096 * (b.toNat - 0xE0) + 64 * y + z = n := ⟨_, rfl⟩
  have hhigh : n / 4096 = b.toNat - 0xE0 := by omega
  have hmiddle : n / 64 % 64 = y := by omega
  have hlow : n % 64 = z := by omega
  rw [hn, encodeChar, toNat_ofNat (by omega), if_neg (by omega), if_neg (by omega), if_pos (by omega), hhigh, hmiddle,
    hlow, byte_eq_add (by omega)]

theorem encodeChar_four {b c d e : UInt8} {y z w : Nat} (hb : 0xF0 ≤ b) (hb' : b < 0xF5) (hc : second? b c = some y)
    (hd : tail? d = some z) (he : tail? e = some w) :
    encodeChar (Char.ofNat (262144 * (b.toNat - 0xF0) + 4096 * y + 64 * z + w)) = [b, c, d, e] := by
  obtain ⟨hy, rfl, -, -, hover, hlast⟩ := eq_of_second? hc
  obtain ⟨hz, rfl⟩ := eq_of_tail? hd
  obtain ⟨hw, rfl⟩ := eq_of_tail? he
  simp only [UInt8.le_iff_toNat_le, UInt8.lt_iff_toNat_lt, UInt8.reduceToNat] at hb hb'
  obtain ⟨n, hn⟩ : ∃ n, 262144 * (b.toNat - 0xF0) + 4096 * y + 64 * z + w = n := ⟨_, rfl⟩
  have hfirst : n / 262144 = b.toNat - 0xF0 := by omega
  have hsecond : n / 4096 % 64 = y := by omega
  have hthird : n / 64 % 64 = z := by omega
  have hlow : n % 64 = w := by omega
  rw [hn, encodeChar, toNat_ofNat (by omega), if_neg (by omega), if_neg (by omega), if_neg (by omega), hfirst, hsecond,
    hthird, hlow, byte_eq_add (by omega)]

theorem encodeChars_cons (c : Char) (cs : List Char) : encodeChars (c :: cs) = encodeChar c ++ encodeChars cs :=
  List.flatMap_cons

theorem encodeChars_of_map {r : Except Fault (List Char)} {c : Char} {cs : List Char} {bytes rest : List UInt8}
    (hc : encodeChar c = bytes) (ih : ∀ {ds}, r = .ok ds → encodeChars ds = rest) (h : r.map (c :: ·) = .ok cs) :
    encodeChars cs = bytes ++ rest := by
  cases r with
  | error fault => exact absurd h (by simp [Except.map])
  | ok ds =>
    obtain rfl := Except.ok.inj h
    rw [encodeChars_cons, hc, ih rfl]

/-- What is read as some characters are the bytes of these characters: no character has a second spelling. -/
theorem encodeChars_of_decodeFrom {index : Nat} {bytes : List UInt8} {cs : List Char}
    (h : decodeFrom index bytes = .ok cs) : encodeChars cs = bytes := by
  fun_induction decodeFrom index bytes generalizing cs with
  | case1 =>
    obtain rfl := Except.ok.inj h
    rfl
  | case2 index b rest hb ih => exact encodeChars_of_map (encodeChar_one hb) ih h
  | case6 index b hb hb' c rest y hc hb2 ih =>
    exact encodeChars_of_map (encodeChar_two (by grind) hb2 hc) ih h
  | case9 index b hb hb' c y hc hb2 d rest z hd hb3 ih =>
    exact encodeChars_of_map (encodeChar_three (by grind) hb3 hc hd) ih h
  | case12 index b hb hb' c y hc hb2 d z hd hb3 e rest w he ih =>
    exact encodeChars_of_map (encodeChar_four (by grind) (by grind) hc hd he) ih h
  | _ => exact absurd h (by simp)

/-- Only the bytes of a text are decoded as it. -/
theorem decode_eq_ok_iff {bytes : List UInt8} {s : String} : decode bytes = .ok s ↔ bytes = encode s := by
  constructor
  · intro h
    rw [decode, decodeChars] at h
    cases hcs : decodeFrom 0 bytes with
    | error fault => exact absurd (hcs ▸ h) (by simp [Except.map])
    | ok cs =>
      rw [hcs] at h
      obtain rfl := Except.ok.inj h
      rw [encode, String.toList_ofList, encodeChars_of_decodeFrom hcs]
  · rintro rfl
    rw [decode, encode, decodeChars_encodeChars]
    exact congrArg Except.ok String.ofList_toList

end Keyspace.Utf8
