import Keyspace.Json.Reader
import Mathlib.Data.List.TakeDrop

/-!
Reading gives back every JSON value, whether it is written in the indented form or in the compact one. What is read
at the front of some characters leaves the rest as it is, so that the parts of a text can be read one after the
other; only a number needs to know that no more of it follows.
-/
namespace Keyspace.Json

/-! ## Numbers -/

theorem digits_append {ds : List Char} (rest : List Char) (hds : ∀ c ∈ ds, c.isDigit = true)
    (hrest : ∀ c ∈ rest.head?, c.isDigit = false) : digits (ds ++ rest) = (ds, rest) := by
  rw [digits, List.span_eq_takeWhile_dropWhile, List.takeWhile_append_of_pos hds,
    List.dropWhile_append_of_pos hds]
  cases rest with
  | nil => simp
  | cons c cs => simp [hrest c rfl]

/-- A number above nine does not start with a zero. -/
theorem head?_toDigits {n : Nat} (hn : 0 < n) : (Nat.toDigits 10 n).head? ≠ some '0' := by
  induction n using Nat.strongRecOn with
  | _ n ih =>
    rcases Nat.lt_or_ge n 10 with hlt | hge
    · rw [Nat.toDigits_of_lt_base hlt, List.head?_cons]
      have hdigit : ∀ m < 10, 0 < m → Nat.digitChar m ≠ '0' := by decide
      simpa using hdigit n hlt hn
    · rw [Nat.toDigits_of_base_le (by decide) hge, List.head?_append,
        Option.or_of_isSome (by simp [List.isSome_head?, Nat.toDigits_ne_nil])]
      exact ih (n / 10) (by omega) (by omega)

/-- No number goes on with these characters. -/
def Ends (rest : List Char) : Prop :=
  ∀ c ∈ rest.head?, c.isDigit = false ∧ c ≠ '.' ∧ c ≠ 'e' ∧ c ≠ 'E'

theorem fractionPart_of_ends {rest : List Char} (h : Ends rest) :
    fractionPart rest = some (false, rest) := by
  unfold fractionPart
  split
  · exact absurd rfl (h '.' rfl).2.1
  · rfl

theorem exponentPart_of_ends {rest : List Char} (h : Ends rest) :
    exponentPart rest = some (false, rest) := by
  cases rest with
  | nil => rfl
  | cons c cs => simp [exponentPart, (h c rfl).2.2.1, (h c rfl).2.2.2]

theorem unsigned_toDigits (negative : Bool) (n : Nat) {rest : List Char} (h : Ends rest) :
    unsigned negative (Nat.toDigits 10 n ++ rest) =
      some (if negative && n == 0 then fraction else integer (if negative then -n else n), rest) := by
  have hdigits := digits_append rest
    (fun c (hc : c ∈ Nat.toDigits 10 n) => Nat.isDigit_of_mem_toDigits (by decide) (by decide) hc)
    fun c hc => (h c hc).1
  have hzero : ¬((Nat.toDigits 10 n).length > 1 ∧ (Nat.toDigits 10 n).head? = some '0') := by
    rintro ⟨hlen, hhead⟩
    rcases Nat.eq_zero_or_pos n with rfl | hn
    · simp at hlen
    · exact head?_toDigits hn hhead
  cases hds : Nat.toDigits 10 n with
  | nil => exact absurd hds Nat.toDigits_ne_nil
  | cons d ds =>
    rw [hds] at hdigits hzero
    rw [unsigned, hdigits]
    simp only [if_neg hzero, fractionPart_of_ends h, exponentPart_of_ends h, Option.bind_eq_bind,
      Option.bind_some, Bool.false_or]
    rw [← hds, Nat.ofDigitChars_ten_toDigits]
    cases (negative && n == 0) <;> rfl

/-- A number is read back up to its end. -/
theorem number_decimal (n : Int) {rest : List Char} (h : Ends rest) :
    number (decimal n ++ rest) = some (integer n, rest) := by
  unfold decimal
  split
  · next hneg =>
    rw [List.cons_append, number, unsigned_toDigits true _ h]
    have hpos : (n.natAbs == 0) = false := by simp; omega
    simp only [hpos, Bool.and_false, Bool.false_eq_true, if_false, if_true]
    rw [show (-(n.natAbs : Int)) = n by omega]
  · next hneg =>
    have hfirst : ∀ cs, Nat.toDigits 10 n.natAbs ++ rest ≠ '-' :: cs := by
      intro cs hcs
      cases hds : Nat.toDigits 10 n.natAbs with
      | nil => exact absurd hds Nat.toDigits_ne_nil
      | cons d ds =>
        have hd : d.isDigit = true :=
          Nat.isDigit_of_mem_toDigits (by decide) (by decide) (n := n.natAbs) (b := 10) (by simp [hds])
        rw [hds, List.cons_append, List.cons.injEq] at hcs
        rw [hcs.1] at hd
        exact absurd hd (by decide)
    rw [number.eq_def]
    split
    · next heq => exact absurd heq (hfirst _)
    · rw [unsigned_toDigits false _ h]
      simp only [Bool.false_and, Bool.false_eq_true, if_false]
      rw [show (n.natAbs : Int) = n by omega]

/-! ## Strings -/

theorem digitValue?_digit : ∀ n < 16, Hex.digitValue? (Hex.digit n) = some n := by decide

theorem isHighHalf_of_lt {n : Nat} (h : n < 0xD800) : isHighHalf n = false := by simp [isHighHalf]; omega

theorem isLowHalf_of_lt {n : Nat} (h : n < 0xD800) : isLowHalf n = false := by simp [isLowHalf]; omega

theorem stringBody_hex4_none {a b c d : Char} (hn : hex4? a b c d = none) (rest : List Char) :
    stringBody ('\\' :: 'u' :: a :: b :: c :: d :: rest) = none := by
  rw [stringBody.eq_def]
  split <;> grind

/-- An escaped number is read on its own, also where another one follows. -/
theorem stringBody_hex4 {a b c d : Char} {n : Nat} (hn : hex4? a b c d = some n) (hlt : n < 0xD800)
    (rest : List Char) :
    stringBody ('\\' :: 'u' :: a :: b :: c :: d :: rest) = andThen (Char.ofNat n) (stringBody rest) := by
  have hhigh := isHighHalf_of_lt hlt
  have hlow := isLowHalf_of_lt hlt
  conv => lhs; rw [stringBody.eq_def]
  split
  · next heq => cases heq
  · next heq => cases heq
  · next a' b' c' d' e f g h rest' heq =>
    simp only [List.cons.injEq, true_and] at heq
    obtain ⟨rfl, rfl, rfl, rfl, rfl⟩ := heq
    rw [hn]
    cases hm : hex4? e f g h with
    | some m => simp [hhigh, hlow]
    | none =>
      rw [stringBody_hex4_none hm]
      rfl
  · next heq =>
    simp only [List.cons.injEq, true_and] at heq
    obtain ⟨rfl, rfl, rfl, rfl, rfl⟩ := heq
    simp [hn, hhigh, hlow]
  · next hfew heq =>
    simp only [List.cons.injEq, true_and] at heq
    exact (hfew _ _ _ _ _ heq.1.symm heq.2.symm).elim
  · next hfew _ heq =>
    simp only [List.cons.injEq] at heq
    exact (hfew _ _ _ _ _ heq.1.symm heq.2.symm).elim

theorem stringBody_plain {c : Char} (hquote : c ≠ '"') (hslash : c ≠ '\\') (hc : ¬c.toNat < 32)
    (rest : List Char) : stringBody (c :: rest) = andThen c (stringBody rest) := by
  conv => lhs; rw [stringBody.eq_def]
  split <;> grind

/-- A character is read back, escaped or not. -/
theorem stringBody_escapeChar (c : Char) (rest : List Char) :
    stringBody (escapeChar c ++ rest) = andThen c (stringBody rest) := by
  unfold escapeChar
  split
  · next hc => subst hc; rfl
  split
  · next hc => subst hc; rfl
  split
  · next hc => subst hc; rfl
  split
  · next hc => subst hc; rfl
  split
  · next hc => subst hc; rfl
  split
  · next hc => subst hc; rfl
  split
  · next hc => subst hc; rfl
  split
  · next hc =>
    have hhigh := digitValue?_digit (c.toNat / 16) (by omega)
    have hlow := digitValue?_digit (c.toNat % 16) (by omega)
    have hn : hex4? '0' '0' (Hex.digit (c.toNat / 16)) (Hex.digit (c.toNat % 16)) = some c.toNat := by
      have hzero : Hex.digitValue? '0' = some 0 := by decide
      simp only [hex4?, hzero, hhigh, hlow, Option.bind_eq_bind, Option.bind_some, Option.pure_def]
      congr 1
      omega
    rw [List.cons_append, List.cons_append, List.cons_append, List.cons_append, List.cons_append,
      List.cons_append, List.nil_append, stringBody_hex4 hn (by omega), Char.ofNat_toNat]
  · next hquote hslash _ _ _ _ _ hc => exact stringBody_plain hquote hslash hc rest

/-- A written string is read back. -/
theorem stringBody_flatMap (cs rest : List Char) :
    stringBody (cs.flatMap escapeChar ++ '"' :: rest) = some (some cs, rest) := by
  induction cs with
  | nil => rw [List.flatMap_nil, List.nil_append, stringBody]
  | cons c cs ih =>
    rw [List.flatMap_cons, List.append_assoc, stringBody_escapeChar, ih]
    rfl

/-! ## Values -/

theorem skipBlank_append {bs : List Char} (hbs : ∀ c ∈ bs, isBlank c = true) (cs : List Char) :
    skipBlank (bs ++ cs) = skipBlank cs :=
  List.dropWhile_append_of_pos hbs

theorem skipBlank_cons {c : Char} (hc : isBlank c = false) (cs : List Char) :
    skipBlank (c :: cs) = c :: cs := by
  simp [skipBlank, hc]

theorem value_congr {cs cs' : List Char} (h : skipBlank cs = skipBlank cs') (fuel : Nat) :
    value fuel cs = value fuel cs' := by
  cases fuel with
  | zero => rw [value, value]
  | succ fuel => rw [value, value, h]

/-- No value starts with a closing bracket. -/
theorem value_closing {cs rest : List Char} (h : skipBlank cs = ']' :: rest) (fuel : Nat) : value fuel cs = none := by
  cases fuel with
  | zero => rw [value]
  | succ fuel =>
    rw [value, h]
    rfl

theorem decimal_first (n : Int) : ∃ c cs, decimal n = c :: cs ∧ (c = '-' ∨ c.isDigit = true) := by
  unfold decimal
  split
  · exact ⟨_, _, rfl, .inl rfl⟩
  · cases hds : Nat.toDigits 10 n.natAbs with
    | nil => exact absurd hds Nat.toDigits_ne_nil
    | cons d ds =>
      have hmem : d ∈ Nat.toDigits 10 n.natAbs := hds ▸ List.mem_cons_self
      exact ⟨d, ds, rfl, .inr (Nat.isDigit_of_mem_toDigits (by decide) (by decide) hmem)⟩

/-- What starts a number starts no other value and is no blank. -/
theorem number_first {c : Char} (hc : c = '-' ∨ c.isDigit = true) :
    isBlank c = false ∧ c ≠ '"' ∧ c ≠ '[' ∧ c ≠ '{' ∧ c ≠ 'n' ∧ c ≠ 't' ∧ c ≠ 'f' := by
  have hnot {x : Char} (hx : x ≠ '-') (hd : x.isDigit = false) : c ≠ x := by
    rintro rfl
    rcases hc with rfl | hc
    · exact hx rfl
    · rw [hd] at hc
      cases hc
  refine ⟨?_, ?_, ?_, ?_, ?_, ?_, ?_⟩
  · simp only [isBlank, Bool.or_eq_false_iff, beq_eq_false_iff_ne]
    refine ⟨⟨⟨?_, ?_⟩, ?_⟩, ?_⟩ <;> exact hnot (by decide) (by decide)
  all_goals exact hnot (by decide) (by decide)

theorem ends_cons {c : Char} (hc : c.isDigit = false ∧ c ≠ '.' ∧ c ≠ 'e' ∧ c ≠ 'E') (cs : List Char) :
    Ends (c :: cs) := by
  rintro x ⟨⟩
  exact hc

/-- No number goes on with a blank, either. -/
theorem ends_append {bs : List Char} (hbs : ∀ c ∈ bs, isBlank c = true) {c : Char}
    (hc : c.isDigit = false ∧ c ≠ '.' ∧ c ≠ 'e' ∧ c ≠ 'E') (cs : List Char) : Ends (bs ++ c :: cs) := by
  cases bs with
  | nil => exact ends_cons hc cs
  | cons b bs =>
    have hb : isBlank b = true := hbs b List.mem_cons_self
    simp only [isBlank, Bool.or_eq_true, beq_iff_eq] at hb
    refine ends_cons ?_ _
    rcases hb with ((rfl | rfl) | rfl) | rfl <;> decide

/-- Some characters are read as a value, whatever comes after them that no number goes on with. -/
def Reads (cs : List Char) (v : Json) : Prop :=
  ∀ (fuel : Nat) (rest : List Char), cs.length < fuel → Ends rest → value fuel (cs ++ rest) = some (v, rest)

/-- Some characters are read as the items of an array and its closing bracket. -/
def ReadsItems (cs : List Char) (vs : List Json) : Prop :=
  ∀ (fuel : Nat) (rest : List Char), cs.length < fuel → items fuel (cs ++ rest) = some (vs, rest)

/-- Some characters are read as the members of an object and its closing brace. -/
def ReadsMembers (cs : List Char) (ms : List (String × Json)) : Prop :=
  ∀ (fuel : Nat) (rest : List Char), cs.length < fuel → members fuel (cs ++ rest) = some (some ms, rest)

theorem quote_append (s : String) (rest : List Char) :
    quote s ++ rest = '"' :: (s.toList.flatMap escapeChar ++ '"' :: rest) := by
  simp [quote]

section

variable {bs cs ds : List Char} {v : Json} {vs : List Json} {ms : List (String × Json)}

theorem Reads.blank (hbs : ∀ c ∈ bs, isBlank c = true) (h : Reads cs v) : Reads (bs ++ cs) v := by
  intro fuel rest hfuel hrest
  rw [List.length_append] at hfuel
  rw [List.append_assoc, value_congr (skipBlank_append hbs _)]
  exact h fuel rest (by omega) hrest

theorem ReadsItems.last (h : Reads cs v) (hbs : ∀ c ∈ bs, isBlank c = true) :
    ReadsItems (cs ++ (bs ++ [']'])) [v] := by
  intro fuel rest hfuel
  cases fuel with
  | zero => omega
  | succ fuel =>
    simp only [List.length_append, List.length_singleton] at hfuel
    rw [List.append_assoc, List.append_assoc, List.singleton_append, items,
      h fuel _ (by omega) (ends_append hbs (by decide) rest)]
    simp only [Option.bind_eq_bind, Option.bind_some, skipBlank_append hbs]
    rw [skipBlank_cons (by decide)]
    rfl

theorem ReadsItems.more (h : Reads cs v) (hds : ReadsItems ds vs) : ReadsItems (cs ++ ',' :: ds) (v :: vs) := by
  intro fuel rest hfuel
  cases fuel with
  | zero => omega
  | succ fuel =>
    simp only [List.length_append, List.length_cons] at hfuel
    rw [List.append_assoc, List.cons_append, items, h fuel _ (by omega) (ends_cons (by decide) _)]
    simp only [Option.bind_eq_bind, Option.bind_some]
    rw [skipBlank_cons (by decide)]
    simp only [hds fuel rest (by omega), Option.map_some]

theorem ReadsMembers.blank (hbs : ∀ c ∈ bs, isBlank c = true) (h : ReadsMembers cs ms) :
    ReadsMembers (bs ++ cs) ms := by
  intro fuel rest hfuel
  rw [List.length_append] at hfuel
  have hcs := h fuel rest (by omega)
  cases fuel with
  | zero => omega
  | succ fuel =>
    rw [members] at hcs
    rw [List.append_assoc, members, skipBlank_append hbs, hcs]

def afterMember (m : String × Json) (fuel : Nat) : List Char → Option (Option (List (String × Json)) × List Char)
  | '}' :: r => some (some [m], r)
  | ',' :: r => (members fuel r).map fun (ms, r) => (do return m :: (← ms), r)
  | _ => none

theorem members_quote (k : String) {fuel : Nat} (rest : List Char) (h : Reads cs v) (hfuel : cs.length < fuel)
    (hrest : Ends rest) :
    members (fuel + 1) (quote k ++ ':' :: (cs ++ rest)) = afterMember (k, v) fuel (skipBlank rest) := by
  rw [members, quote_append, skipBlank_cons (by decide)]
  simp only [stringBody_flatMap, Option.bind_eq_bind, Option.bind_some]
  rw [skipBlank_cons (by decide)]
  simp only [h fuel rest hfuel hrest, Option.bind_some, Option.map_some, String.ofList_toList]
  rfl

theorem ReadsMembers.last (k : String) (h : Reads cs v) (hbs : ∀ c ∈ bs, isBlank c = true) :
    ReadsMembers (quote k ++ ':' :: (cs ++ (bs ++ ['}']))) [(k, v)] := by
  intro fuel rest hfuel
  cases fuel with
  | zero => omega
  | succ fuel =>
    simp only [List.length_append, List.length_cons] at hfuel
    have hends : Ends (bs ++ '}' :: rest) := ends_append hbs (by decide) rest
    simp only [List.append_assoc, List.cons_append, List.nil_append]
    rw [members_quote k _ h (by omega) hends, skipBlank_append hbs, skipBlank_cons (by decide)]
    rfl

theorem ReadsMembers.more (k : String) (h : Reads cs v) (hds : ReadsMembers ds ms) :
    ReadsMembers (quote k ++ ':' :: (cs ++ ',' :: ds)) ((k, v) :: ms) := by
  intro fuel rest hfuel
  cases fuel with
  | zero => omega
  | succ fuel =>
    simp only [List.length_append, List.length_cons] at hfuel
    simp only [List.append_assoc, List.cons_append]
    rw [members_quote k _ h (by omega) (ends_cons (by decide) _), skipBlank_cons (by decide), afterMember,
      hds fuel rest (by omega)]
    rfl

/-- An array is read if its items are. -/
theorem Reads.array (h : ReadsItems cs vs) : Reads ('[' :: cs) (array vs) := by
  intro fuel rest hfuel _
  cases fuel with
  | zero => omega
  | succ fuel =>
    have hitems := h fuel rest (by simpa using hfuel)
    rw [List.cons_append, value, skipBlank_cons (by decide)]
    simp only [Char.reduceEq, if_false, if_true]
    split
    · next hclosing =>
      -- an item was read there, and none starts with the closing bracket
      cases fuel with
      | zero => simp at hfuel
      | succ fuel =>
        rw [items, value_closing hclosing] at hitems
        cases hitems
    · rw [hitems, Option.map_some]

/-- An object is read if its members are. -/
theorem Reads.object (h : ReadsMembers cs ms) : Reads ('{' :: cs) (object ms) := by
  intro fuel rest hfuel _
  cases fuel with
  | zero => omega
  | succ fuel =>
    have hmembers := h fuel rest (by simpa using hfuel)
    rw [List.cons_append, value, skipBlank_cons (by decide)]
    simp only [Char.reduceEq, if_false, if_true]
    split
    · next hclosing =>
      cases fuel with
      | zero => simp at hfuel
      | succ fuel =>
        rw [members, hclosing] at hmembers
        cases hmembers
    · rw [hmembers, Option.map_some, ofMembers]

/-- What is read as a value whatever follows, a number or not. -/
theorem reads_of_value (h : ∀ fuel rest, value (fuel + 1) (cs ++ rest) = some (v, rest)) : Reads cs v := by
  intro fuel rest hfuel _
  cases fuel with
  | zero => omega
  | succ fuel => exact h fuel rest

end

/-- A number is read as itself. -/
theorem reads_integer (n : Int) : Reads (decimal n) (integer n) := by
  intro fuel rest hfuel hrest
  obtain ⟨c, cs, hcs, hc⟩ := decimal_first n
  obtain ⟨hblank, hquote, harray, hobject, hnull, htrue, hfalse⟩ := number_first hc
  have hnumber := number_decimal n hrest
  cases fuel with
  | zero => omega
  | succ fuel =>
    rw [hcs, List.cons_append] at hnumber
    rw [value, hcs, List.cons_append, skipBlank_cons hblank]
    simp [hquote, harray, hobject, hnull, htrue, hfalse, hnumber]

theorem reads_fraction : Reads ['-', '0'] fraction := by
  intro fuel rest hfuel hrest
  cases fuel with
  | zero => omega
  | succ fuel =>
    have hzero : unsigned true ('0' :: rest) = some (fraction, rest) := unsigned_toDigits true 0 hrest
    rw [value, List.cons_append, List.singleton_append, skipBlank_cons (by decide)]
    simp [number, hzero]

theorem reads_string (s : String) : Reads (quote s) (string s) := reads_of_value fun fuel rest => by
  rw [quote_append, value, skipBlank_cons (by decide)]
  simp only [if_true, stringBody_flatMap, Option.map_some, ofText, String.ofList_toList]

theorem reads_illFormed : Reads quoteIllFormed illFormed := reads_of_value fun fuel rest => by
  have hbody : stringBody ('\\' :: 'u' :: 'd' :: '8' :: '0' :: '0' :: '"' :: rest) = some (none, rest) := by
    rw [stringBody.eq_def]
    rfl
  rw [quoteIllFormed, value]
  simp only [List.cons_append, List.nil_append]
  rw [skipBlank_cons (by decide)]
  simp only [if_true, hbody, Option.map_some, ofText]

/-! ## Written values -/

/-- What holds of a value if it holds of its items or of the values of its members holds of all values. -/
theorem inductionOn {motive : Json → Prop} (null : motive null) (bool : ∀ b, motive (bool b))
    (integer : ∀ n, motive (integer n)) (fraction : motive fraction) (string : ∀ s, motive (string s))
    (illFormed : motive illFormed) (array : ∀ vs, (∀ v ∈ vs, motive v) → motive (array vs))
    (object : ∀ ms, (∀ m ∈ ms, motive m.2) → motive (object ms)) : ∀ v, motive v
  | .null => null
  | .bool b => bool b
  | .integer n => integer n
  | .fraction => fraction
  | .string s => string s
  | .illFormed => illFormed
  | .array vs => array vs fun v _ => inductionOn null bool integer fraction string illFormed array object v
  | .object ms => object ms fun m _ => inductionOn null bool integer fraction string illFormed array object m.2
termination_by v => sizeOf v
decreasing_by
  · next h =>
    have := List.sizeOf_lt_of_mem h
    simp
    omega
  · next h =>
    have := List.sizeOf_lt_of_mem h
    have : sizeOf m = 1 + sizeOf m.1 + sizeOf m.2 := by cases m; simp
    simp
    omega

theorem isBlank_newline (depth : Nat) : ∀ c ∈ newline depth, isBlank c = true := by
  intro c hc
  simp only [newline, List.mem_cons, List.mem_replicate] at hc
  rcases hc with rfl | ⟨-, rfl⟩ <;> rfl

theorem readsItems_pretty {depth : Nat} {v : Json} {vs : List Json}
    (h : ∀ w ∈ v :: vs, Reads (prettyChars (depth + 1) w) w) :
    ReadsItems (newline (depth + 1) ++ prettyChars (depth + 1) v ++ prettyItems depth vs) (v :: vs) := by
  induction vs generalizing v with
  | nil =>
    rw [prettyItems]
    exact .last ((h v List.mem_cons_self).blank (isBlank_newline _)) (isBlank_newline _)
  | cons w vs ih =>
    rw [prettyItems, List.cons_append, List.cons_append]
    exact .more ((h v List.mem_cons_self).blank (isBlank_newline _)) (ih fun x hx => h x (List.mem_cons_of_mem _ hx))

theorem readsMembers_pretty {depth : Nat} {m : String × Json} {ms : List (String × Json)}
    (h : ∀ n ∈ m :: ms, Reads (prettyChars (depth + 1) n.2) n.2) :
    ReadsMembers (newline (depth + 1) ++ (quote m.1 ++ ':' :: ([' '] ++ prettyChars (depth + 1) m.2 ++
      prettyMembers depth ms))) (m :: ms) := by
  have hspace : ∀ c ∈ [' '], isBlank c = true := by simp [isBlank]
  induction ms generalizing m with
  | nil =>
    rw [prettyMembers]
    exact .blank (isBlank_newline _) (.last m.1 ((h m List.mem_cons_self).blank hspace) (isBlank_newline _))
  | cons n ms ih =>
    have hrest := ih fun x hx => h x (List.mem_cons_of_mem _ hx)
    refine .blank (isBlank_newline _) ?_
    simpa [prettyMembers] using ReadsMembers.more m.1 ((h m List.mem_cons_self).blank hspace) hrest

/-- Every value is read back from its indented form. -/
theorem reads_prettyChars (v : Json) : ∀ depth, Reads (prettyChars depth v) v := by
  induction v using inductionOn with
  | null =>
    intro depth
    refine reads_of_value fun fuel rest => ?_
    rw [value]
    rfl
  | bool b =>
    intro depth
    refine reads_of_value fun fuel rest => ?_
    rw [value]
    cases b <;> rfl
  | integer n => exact fun depth => reads_integer n
  | fraction => exact fun depth => reads_fraction
  | string s => exact fun depth => reads_string s
  | illFormed => exact fun depth => reads_illFormed
  | array vs ih =>
    intro depth
    cases vs with
    | nil =>
      refine reads_of_value fun fuel rest => ?_
      rw [value]
      rfl
    | cons v vs =>
      have hitems := readsItems_pretty fun w hw => ih w hw (depth + 1)
      simpa [prettyChars] using Reads.array hitems
  | object ms ih =>
    intro depth
    cases ms with
    | nil =>
      refine reads_of_value fun fuel rest => ?_
      rw [value]
      rfl
    | cons m ms =>
      have hmembers := readsMembers_pretty fun n hn => ih n hn (depth + 1)
      simpa [prettyChars] using Reads.object hmembers

theorem noBlank : ∀ c ∈ ([] : List Char), isBlank c = true := nofun

theorem readsItems_compact {v : Json} {vs : List Json} (h : ∀ w ∈ v :: vs, Reads (compactChars w) w) :
    ReadsItems (compactChars v ++ compactItems vs) (v :: vs) := by
  induction vs generalizing v with
  | nil =>
    exact .last (h v List.mem_cons_self) noBlank
  | cons w vs ih =>
    rw [compactItems, List.cons_append]
    exact .more (h v List.mem_cons_self) (ih fun x hx => h x (List.mem_cons_of_mem _ hx))

theorem readsMembers_compact {m : String × Json} {ms : List (String × Json)}
    (h : ∀ n ∈ m :: ms, Reads (compactChars n.2) n.2) :
    ReadsMembers (quote m.1 ++ ':' :: (compactChars m.2 ++ compactMembers ms)) (m :: ms) := by
  induction ms generalizing m with
  | nil =>
    exact .last m.1 (h m List.mem_cons_self) noBlank
  | cons n ms ih =>
    have hrest := ih fun x hx => h x (List.mem_cons_of_mem _ hx)
    simpa [compactMembers] using ReadsMembers.more m.1 (h m List.mem_cons_self) hrest

/-- Every value is read back from its compact form. -/
theorem reads_compactChars (v : Json) : Reads (compactChars v) v := by
  induction v using inductionOn with
  | null => exact reads_prettyChars null 0
  | bool b =>
    cases b with
    | false => exact reads_prettyChars (bool false) 0
    | true => exact reads_prettyChars (bool true) 0
  | integer n => exact reads_integer n
  | fraction => exact reads_fraction
  | string s => exact reads_string s
  | illFormed => exact reads_illFormed
  | array vs ih =>
    cases vs with
    | nil => exact reads_prettyChars (array []) 0
    | cons v vs => simpa [compactChars] using Reads.array (readsItems_compact ih)
  | object ms ih =>
    cases ms with
    | nil => exact reads_prettyChars (object []) 0
    | cons m ms => simpa [compactChars] using Reads.object (readsMembers_compact ih)

theorem Reads.parseChars_eq {cs : List Char} {v : Json} (h : Reads cs v) : parseChars cs = some v := by
  have hread := h (cs.length + 1) [] (by omega) (by rintro c ⟨⟩)
  rw [List.append_nil] at hread
  rw [parseChars, hread]
  rfl

/-- The reader inverts the printer on whole texts. -/
theorem parseChars_prettyChars (v : Json) : parseChars (prettyChars 0 v) = some v :=
  (reads_prettyChars v 0).parseChars_eq

theorem parse_compact (v : Json) : parse v.compact = some v := by
  rw [parse, compact, String.toList_ofList]
  exact (reads_compactChars v).parseChars_eq

end Keyspace.Json
