import Keyspace.KeyRange

/-!
The keys of a range. The bounds of a range say which keys it holds, a key is the only one below its
successor that is not below the key itself, and the keys above a prefix and below what comes after it are
those that start with it.
-/
namespace Keyspace

theorem Bound.lt_min_iff {a b c : Bound} : c < a.min b ↔ c < a ∧ c < b := by
  unfold Bound.min
  split <;> grind

namespace Key

theorem nil_le (k : Key) : [] ≤ k := Std.not_lt.1 (List.not_lt_nil k)

/-- Nothing lies between a key and its successor. -/
theorem lt_successor_iff {x k : Key} : x < k.successor ↔ x ≤ k := by
  unfold successor
  induction k generalizing x with
  | nil => cases x with
    | nil => exact iff_of_true List.Lex.nil (Std.le_refl _)
    | cons a x =>
      refine iff_of_false (fun h => ?_) fun h => ?_
      · rw [List.nil_append, List.cons_lt_cons_iff] at h
        rcases h with h | ⟨-, h⟩
        · exact absurd h UInt8.not_lt_zero
        · exact List.not_lt_nil _ h
      · exact Std.not_lt.2 h List.Lex.nil
  | cons b k ih => cases x with
    | nil => exact iff_of_true List.Lex.nil (nil_le _)
    | cons a x =>
      rw [List.cons_append, List.cons_lt_cons_iff, List.cons_le_cons_iff, ih]

/-- A bound is above a key just if it is not below the successor of the key. -/
theorem successor_le_iff {k : Key} {b : Bound} : Bound.key k.successor ≤ b ↔ Bound.key k < b := by
  cases b with
  | top => simp
  | key x =>
    simp only [Bound.key_le_key, Bound.key_lt_key]
    rw [← Std.not_lt, lt_successor_iff, Std.not_le]

/-- Whatever lies between two keys with a common start has that start too. -/
theorem exists_eq_append {p u v k : Key} (hlow : p ++ u ≤ k) (hhigh : k < p ++ v) :
    ∃ s, k = p ++ s ∧ u ≤ s ∧ s < v := by
  induction p generalizing k with
  | nil => exact ⟨k, rfl, hlow, hhigh⟩
  | cons a p ih => cases k with
    | nil => exact absurd hlow (Std.not_le.2 List.Lex.nil)
    | cons b k =>
      rw [List.cons_append, List.cons_le_cons_iff] at hlow
      rw [List.cons_append, List.cons_lt_cons_iff] at hhigh
      have hab : a = b := by grind
      subst hab
      have hlow : p ++ u ≤ k := by grind
      have hhigh : k < p ++ v := by grind
      obtain ⟨s, rfl, hs⟩ := ih hlow hhigh
      exact ⟨s, rfl, hs⟩

/-- A key at or above a run of the greatest byte starts with that run. -/
theorem isPrefix_of_replicate_le {n : Nat} {k : Key} (h : List.replicate n 255 ≤ k) :
    List.replicate n 255 <+: k := by
  induction n generalizing k with
  | zero => exact List.nil_prefix
  | succ n ih => cases k with
    | nil => exact absurd h (Std.not_le.2 List.Lex.nil)
    | cons b k =>
      rw [List.replicate_succ, List.cons_le_cons_iff] at h
      have hb : ¬(255 : UInt8) < b := by
        rw [UInt8.lt_iff_toNat_lt]
        have := b.toNat_lt
        simp
        omega
      obtain ⟨hb, h⟩ := h.resolve_left hb
      exact List.cons_prefix_cons.2 ⟨hb, ih h⟩

theorem le_of_isPrefix {p k : Key} (h : p <+: k) : p ≤ k := by
  obtain ⟨s, rfl⟩ := h
  induction p with
  | nil => exact nil_le _
  | cons a p ih => exact List.cons_le_cons_iff.2 (.inr ⟨rfl, ih⟩)

/-- A prefix ends in a run of the greatest byte, which its successor bound drops; the byte before it, if
there is one, goes up by one. -/
theorem afterPrefix_cases (p : Key) :
    (∃ n, p = List.replicate n 255 ∧ p.afterPrefix = .top) ∨
      ∃ q b n, p = q ++ b :: List.replicate n 255 ∧ b < b + 1 ∧ p.afterPrefix = .key (q ++ [b + 1]) := by
  have hones (l : List UInt8) :
      l.takeWhile (· = 255) = List.replicate (l.takeWhile (· = 255)).length 255 := by
    refine List.eq_replicate_iff.2 ⟨rfl, fun b hb => ?_⟩
    simpa using List.all_eq_true.1 List.all_takeWhile b hb
  have hsplit := List.takeWhile_append_dropWhile (p := (· = 255)) (l := p.reverse)
  have hrev := congrArg List.reverse hsplit
  rw [List.reverse_append, List.reverse_reverse, hones p.reverse, List.reverse_replicate] at hrev
  unfold afterPrefix
  split
  · next h =>
    rw [h] at hrev
    exact .inl ⟨_, by simpa using hrev.symm, rfl⟩
  · next b rest h =>
    rw [h, List.reverse_cons, List.append_assoc] at hrev
    refine .inr ⟨rest.reverse, b, _, hrev.symm, ?_, rfl⟩
    have hb : b ≠ 255 := fun hb => by
      have := List.head?_dropWhile_not (· = 255) p.reverse
      simp [h, hb] at this
    have hb' : b.toNat ≠ 255 := fun h' => hb (UInt8.toNat_inj.1 h')
    have := b.toNat_lt
    rw [UInt8.lt_iff_toNat_lt, UInt8.toNat_add]
    simp
    omega

/-- The keys from a prefix up to what comes after it are those that start with it. -/
theorem isPrefix_iff {p k : Key} : p <+: k ↔ p ≤ k ∧ Bound.key k < p.afterPrefix := by
  refine ⟨fun h => ⟨le_of_isPrefix h, ?_⟩, ?_⟩
  · rcases afterPrefix_cases p with ⟨n, -, htop⟩ | ⟨q, b, n, hp, hb, hafter⟩
    · simp [htop]
    · obtain ⟨s, rfl⟩ := h
      rw [hafter, Bound.key_lt_key, hp, List.append_assoc]
      exact KeyRange.append_lt_append_left q (List.cons_lt_cons_iff.2 (.inl hb))
  · rintro ⟨hlow, hhigh⟩
    rcases afterPrefix_cases p with ⟨n, hp, -⟩ | ⟨q, b, n, hp, hb, hafter⟩
    · rw [hp] at hlow ⊢
      exact isPrefix_of_replicate_le hlow
    · rw [hafter, Bound.key_lt_key] at hhigh
      rw [hp] at hlow ⊢
      obtain ⟨s, rfl, hs, hs'⟩ := exists_eq_append hlow hhigh
      rw [List.prefix_append_right_inj]
      cases s with
      | nil => exact absurd hs (Std.not_le.2 List.Lex.nil)
      | cons c s =>
        rw [List.cons_le_cons_iff] at hs
        rw [List.cons_lt_cons_iff] at hs'
        have hc : c < b + 1 := hs'.resolve_right fun h => List.not_lt_nil _ h.2
        have hcb : ¬b < c := by
          have := b.toNat_lt
          rw [UInt8.lt_iff_toNat_lt] at hb hc ⊢
          rw [UInt8.toNat_add] at hb hc
          simp at hb hc
          omega
        obtain ⟨hbc, hs⟩ := hs.resolve_left hcb
        exact List.cons_prefix_cons.2 ⟨hbc, isPrefix_of_replicate_le hs⟩

/-- The bytes of a prefix that nothing comes after are all the greatest byte. -/
theorem afterPrefix_eq_top_iff {p : Key} : p.afterPrefix = .top ↔ ∀ b ∈ p, b = 255 := by
  rcases afterPrefix_cases p with ⟨n, hp, htop⟩ | ⟨q, b, n, hp, hb, hafter⟩
  · refine iff_of_true htop fun b hb => ?_
    rw [hp] at hb
    exact List.eq_of_mem_replicate hb
  · refine iff_of_false (by simp [hafter]) fun hall => ?_
    have h255 : b = 255 := hall b (by simp [hp])
    rw [h255] at hb
    exact absurd hb (by decide)

/-- Keys above all that start with a prefix are those that are not below what comes after it. -/
theorem afterPrefix_le_iff {p u : Key} : p.afterPrefix ≤ .key u ↔ ∀ k, p <+: k → k < u := by
  constructor
  · intro h k hk
    have hbelow : Bound.key k < .key u := Std.lt_of_lt_of_le (isPrefix_iff.1 hk).2 h
    exact hbelow
  · intro h
    refine Std.not_lt.1 fun hlt => ?_
    -- a key that is above the prefix and below what comes after it starts with the prefix itself
    have hstart : p <+: u := isPrefix_iff.2 ⟨Std.le_of_lt (h p List.prefix_rfl), hlt⟩
    exact Std.lt_irrefl (h u hstart)

end Key

namespace KeyRange

/-- Both bounds of a range are bounds on its keys. -/
theorem contains_iff {r : KeyRange} {k : Key} :
    r.contains k = true ↔ Bound.key r.low ≤ .key k ∧ Bound.key k < r.high := by
  simp [contains, Key.isBelow]

theorem contains_eq_false_iff {r : KeyRange} {k : Key} :
    r.contains k = false ↔ Bound.key k < .key r.low ∨ r.high ≤ Bound.key k := by
  rw [← Bool.not_eq_true, contains_iff]
  grind

@[simp] theorem contains_single {x k : Key} : (single k).contains x = true ↔ x = k := by
  rw [contains_iff]
  simp only [single, Bound.key_lt_key, Bound.key_le_key, Key.lt_successor_iff]
  grind

@[simp] theorem contains_startingWith {p k : Key} : (startingWith p).contains k = true ↔ p <+: k := by
  rw [contains_iff, Key.isPrefix_iff]
  rfl

theorem touches_iff {r s : KeyRange} :
    r.touches s = true ↔ Bound.key s.low ≤ r.high ∧ Bound.key r.low ≤ s.high := by
  simp [touches]

/-- An empty range is one without keys. -/
theorem isEmpty_iff {r : KeyRange} : r.isEmpty = true ↔ ∀ k, r.contains k = false := by
  simp only [contains_eq_false_iff, isEmpty, decide_eq_true_eq]
  constructor
  · intro h k
    rw [h]
    grind
  · intro h
    have := h r.low
    have := r.low_le_high
    grind

/-- The ranges of a prefix and of a single key are exact. The range of a prefix holds the keys that start with it, and
the range of a key that key alone. What comes after a prefix is the least key above all that start with it, or the end
of the keyspace where there is no key above them, which is so where the prefix has no byte but the greatest one. -/
theorem startingWith_exact (p : Key) :
    (∀ k, (startingWith p).contains k = true ↔ p <+: k) ∧
    (∀ k, (single p).contains k = true ↔ k = p) ∧
    (∀ s, p.afterPrefix = .key s ↔ (∀ k, p <+: k → k < s) ∧ ∀ u, (∀ k, p <+: k → k < u) → s ≤ u) ∧
    (p.afterPrefix = .top ↔ ¬∃ u, ∀ k, p <+: k → k < u) ∧
    (p.afterPrefix = .top ↔ ∀ b ∈ p, b = 255) := by
  simp only [← Key.afterPrefix_le_iff]
  refine ⟨fun k => contains_startingWith, fun k => contains_single, fun s => ?_, ?_, Key.afterPrefix_eq_top_iff⟩
  · constructor
    · intro h
      rw [h]
      exact ⟨Std.le_refl _, fun u hu => hu⟩
    · rintro ⟨habove, hleast⟩
      cases hafter : p.afterPrefix with
      | top => simp [hafter] at habove
      | key t =>
        rw [hafter] at habove hleast
        exact congrArg Bound.key (Std.le_antisymm habove (hleast t (Std.le_refl _)))
  · cases p.afterPrefix with
    | top => simp
    | key s => exact iff_of_false nofun fun hnone => hnone ⟨s, Std.le_refl _⟩

/-! ## Ranges within ranges -/

variable {r s : KeyRange}

theorem containsRange_iff : r.containsRange s = true ↔ Bound.key r.low ≤ .key s.low ∧ s.high ≤ r.high := by
  simp [containsRange]

theorem contains_low_iff : r.contains r.low = true ↔ r.isEmpty = false := by
  have := r.low_le_high
  rw [contains_iff, isEmpty, decide_eq_false_iff_not]
  grind

/-- The keys of an empty range are keys of every range. -/
theorem contains_of_isEmpty (hs : s.isEmpty = true) {k : Key} (hk : s.contains k = true) : r.contains k = true := by
  rw [isEmpty_iff.1 hs k] at hk
  cases hk

/-- Bounds within bounds mean keys among keys. -/
theorem contains_of_containsRange (h : r.containsRange s = true) {k : Key} (hk : s.contains k = true) :
    r.contains k = true := by
  rw [containsRange_iff] at h
  rw [contains_iff] at hk ⊢
  exact ⟨Std.le_trans h.1 hk.1, Std.lt_of_lt_of_le hk.2 h.2⟩

/-- A range with keys, all of which another one has, lies within the bounds of the other one. -/
theorem containsRange_of_subset (hs : s.isEmpty = false) (h : ∀ k, s.contains k = true → r.contains k = true) :
    r.containsRange s = true := by
  have hlow := contains_iff.1 (h s.low (contains_low_iff.2 hs))
  refine containsRange_iff.2 ⟨hlow.1, Std.not_lt.1 fun hlt => ?_⟩
  cases hhigh : r.high with
  | top => simp [hhigh] at hlt
  | key e =>
    -- the end of `r` would be a key of `s`
    rw [hhigh] at hlow hlt
    have hend := (contains_iff.1 (h e (contains_iff.2 ⟨Std.le_of_lt hlow.2, hlt⟩))).2
    rw [hhigh] at hend
    exact Std.lt_irrefl hend

/-- An empty range lies within the bounds of another one if its place is a key of the other one or its end. -/
theorem containsRange_iff_of_isEmpty (hs : s.isEmpty = true) :
    r.containsRange s = true ↔ r.contains s.low = true ∨ r.high = .key s.low := by
  have hhigh : s.high = .key s.low := by simpa [isEmpty] using hs
  have := r.low_le_high
  rw [containsRange_iff, contains_iff, hhigh]
  grind

/-- The test of bounds within bounds and the subset relation. The bounds of `s` lie within those of `r` just if all
keys of `s` are keys of `r` and, where `s` is empty, its place is a key of `r` or the end of `r`. So the test tells
whether `s` is a subset except where `s` is empty and lies apart from `r`. -/
theorem containsRange_exact (r s : KeyRange) :
    (r.containsRange s = true ↔ (∀ k, s.contains k = true → r.contains k = true) ∧
      (s.isEmpty = true → r.contains s.low = true ∨ r.high = .key s.low)) ∧
    ((r.containsRange s = true ↔ ∀ k, s.contains k = true → r.contains k = true) ↔
      (s.isEmpty = true → r.contains s.low = true ∨ r.high = .key s.low)) := by
  cases hs : s.isEmpty with
  | false =>
    have hiff : r.containsRange s = true ↔ ∀ k, s.contains k = true → r.contains k = true :=
      ⟨fun h k => contains_of_containsRange h, containsRange_of_subset hs⟩
    simp [hiff]
  | true =>
    have hsubset : ∀ k, s.contains k = true → r.contains k = true := fun k => contains_of_isEmpty hs
    simp [containsRange_iff_of_isEmpty hs, iff_true_intro hsubset]

/-- All keys of an empty range are keys of a range before it, but its bounds are not within those of that range. -/
theorem containsRange_ne_subset :
    let r : KeyRange := ⟨[0x10], .key [0x20], by decide⟩
    let s : KeyRange := ⟨[0x50], .key [0x50], by decide⟩
    (∀ k, s.contains k = true → r.contains k = true) ∧ r.containsRange s = false := by
  intro r s
  have hempty : s.isEmpty = true := by decide
  exact ⟨fun k => contains_of_isEmpty hempty, by decide⟩

end KeyRange

end Keyspace
