import Keyspace.Proofs.SortedMap
import Keyspace.Store

/-!
Ordered look-ups. What the entry nearest to a bound is depends only on how single keys are looked up: there
is exactly one such answer, and it stays the answer as long as the keys from the bound to the entry keep
theirs. Plain stores give that answer in both directions.
-/
namespace Keyspace

/-- The answer is the entry with the least key at or above `k` among those that `look` finds. -/
def IsFirst (look : Key → Option Value) (k : Key) : Option Entry → Prop
  | none => ∀ x, k ≤ x → look x = none
  | some e => look e.1 = some e.2 ∧ k ≤ e.1 ∧ ∀ x, k ≤ x → x < e.1 → look x = none

/-- The answer is the entry with the greatest key below `b` among those that `look` finds. -/
def IsLast (look : Key → Option Value) (b : Bound) : Option Entry → Prop
  | none => ∀ x, Bound.key x < b → look x = none
  | some e =>
    look e.1 = some e.2 ∧ Bound.key e.1 < b ∧ ∀ x, e.1 < x → Bound.key x < b → look x = none

section

variable {look look' : Key → Option Value}

/-- There is one first entry at most. -/
theorem IsFirst.unique {k : Key} {r r' : Option Entry} (h : IsFirst look k r) (h' : IsFirst look k r') :
    r = r' := by
  rcases r with - | ⟨x, v⟩ <;> rcases r' with - | ⟨y, w⟩ <;> simp only [IsFirst] at h h'
  · rfl
  · simp [h y h'.2.1] at h'
  · simp [h' x h.2.1] at h
  · have hx : ¬x < y := fun hlt => by simp [h'.2.2 x h.2.1 hlt] at h
    have hy : ¬y < x := fun hlt => by simp [h.2.2 y h'.2.1 hlt] at h'
    obtain rfl : x = y := by grind
    obtain rfl : v = w := by simpa [h.1] using h'.1
    rfl

/-- There is one last entry at most. -/
theorem IsLast.unique {b : Bound} {r r' : Option Entry} (h : IsLast look b r) (h' : IsLast look b r') :
    r = r' := by
  rcases r with - | ⟨x, v⟩ <;> rcases r' with - | ⟨y, w⟩ <;> simp only [IsLast] at h h'
  · rfl
  · simp [h y h'.2.1] at h'
  · simp [h' x h.2.1] at h
  · have hx : ¬y < x := fun hlt => by simp [h'.2.2 x hlt h.2.1] at h
    have hy : ¬x < y := fun hlt => by simp [h.2.2 y hlt h'.2.1] at h'
    obtain rfl : x = y := by grind
    obtain rfl : v = w := by simpa [h.1] using h'.1
    rfl

/-- Only the keys from the bound up to the entry found matter. -/
theorem IsFirst.congr {k : Key} {r : Option Entry} (h : IsFirst look k r)
    (hsame : ∀ x, k ≤ x → (∀ e ∈ r, x ≤ e.1) → look x = look' x) : IsFirst look' k r := by
  cases r with
  | none => exact fun x hx => by rw [← hsame x hx (by simp), h x hx]
  | some e =>
    refine ⟨?_, h.2.1, ?_⟩
    · rw [← hsame e.1 h.2.1 (by simp), h.1]
    · intro x hx hlt
      rw [← hsame x hx (by simpa using Std.le_of_lt hlt), h.2.2 x hx hlt]

/-- Only the keys from the entry found up to the bound matter. -/
theorem IsLast.congr {b : Bound} {r : Option Entry} (h : IsLast look b r)
    (hsame : ∀ x, Bound.key x < b → (∀ e ∈ r, e.1 ≤ x) → look x = look' x) : IsLast look' b r := by
  cases r with
  | none => exact fun x hx => by rw [← hsame x hx (by simp), h x hx]
  | some e =>
    refine ⟨?_, h.2.1, ?_⟩
    · rw [← hsame e.1 h.2.1 (by simp), h.1]
    · intro x hlt hx
      rw [← hsame x hx (by simpa using Std.le_of_lt hlt), h.2.2 x hlt hx]

/-- A search may start higher where nothing is passed over. -/
theorem IsFirst.of_le {k k' : Key} {r : Option Entry} (h : IsFirst look k' r) (hle : k ≤ k')
    (hgap : ∀ x, k ≤ x → x < k' → look x = none) : IsFirst look k r := by
  cases r with
  | none =>
    intro x hx
    by_cases hlt : x < k'
    · exact hgap x hx hlt
    · exact h x (by grind)
  | some e =>
    refine ⟨h.1, Std.le_trans hle h.2.1, ?_⟩
    intro x hx hlt
    by_cases hlt' : x < k'
    · exact hgap x hx hlt'
    · exact h.2.2 x (by grind) hlt

/-- A search may start lower where nothing is passed over. -/
theorem IsLast.of_le {b b' : Bound} {r : Option Entry} (h : IsLast look b' r) (hle : b' ≤ b)
    (hgap : ∀ x, b' ≤ Bound.key x → Bound.key x < b → look x = none) : IsLast look b r := by
  cases r with
  | none =>
    intro x hx
    by_cases hlt : Bound.key x < b'
    · exact h x hlt
    · exact hgap x (by grind) hx
  | some e =>
    refine ⟨h.1, by have := h.2.1; grind, ?_⟩
    intro x hlt hx
    by_cases hlt' : Bound.key x < b'
    · exact h.2.2 x hlt hlt'
    · exact hgap x (by grind) hx

end

namespace Store

/-- A plain store finds the first entry from a key on. -/
theorem isFirst_firstAtLeast (m : Store) (k : Key) : IsFirst m.get? k (m.firstAtLeast k) := by
  unfold firstAtLeast
  cases h : m.toList.find? fun e => decide (k ≤ e.1) with
  | none =>
    intro x hx
    rw [List.find?_eq_none] at h
    refine SortedMap.get?_eq_none_iff.2 fun e he hek => h e he ?_
    simpa [hek] using hx
  | some e =>
    obtain ⟨hk, as, bs, hsplit, has⟩ := List.find?_eq_some_iff_append.1 h
    have hasc := m.ascending
    rw [hsplit, List.pairwise_append, List.pairwise_cons] at hasc
    refine ⟨SortedMap.mem_toList_iff.1 (by simp [hsplit]), by simpa using hk, ?_⟩
    intro x hx hlt
    refine SortedMap.get?_eq_none_iff.2 fun f hf hfx => ?_
    rw [hsplit, List.mem_append, List.mem_cons] at hf
    rcases hf with hf | rfl | hf
    · have := has f hf
      simp only [Bool.not_eq_true', decide_eq_false_iff_not, hfx] at this
      exact this hx
    · grind
    · have := hasc.2.1.1 f hf
      grind

/-- A plain store finds the last entry below a bound. -/
theorem isLast_lastBelow (m : Store) (b : Bound) : IsLast m.get? b (m.lastBelow b) := by
  unfold lastBelow
  cases h : m.toList.reverse.find? fun e => e.1.isBelow b with
  | none =>
    intro x hx
    rw [List.find?_eq_none] at h
    refine SortedMap.get?_eq_none_iff.2 fun e he hek => h e (List.mem_reverse.2 he) ?_
    simpa [hek, Key.isBelow] using hx
  | some e =>
    obtain ⟨hk, as, bs, hsplit, has⟩ := List.find?_eq_some_iff_append.1 h
    have hsplit' : m.toList = bs.reverse ++ e :: as.reverse := by
      simpa using congrArg List.reverse hsplit
    have hasc := m.ascending
    rw [hsplit', List.pairwise_append] at hasc
    refine ⟨SortedMap.mem_toList_iff.1 (by simp [hsplit']), by simpa [Key.isBelow] using hk,
      fun x hlt hx => ?_⟩
    refine SortedMap.get?_eq_none_iff.2 fun f hf hfx => ?_
    rw [hsplit', List.mem_append, List.mem_cons, List.mem_reverse, List.mem_reverse] at hf
    rcases hf with hf | rfl | hf
    · have := hasc.2.2 f (by simpa using hf) e (by simp)
      grind
    · grind
    · have := has f hf
      simp only [Key.isBelow, Bool.not_eq_true', decide_eq_false_iff_not, hfx] at this
      exact this hx

/-! ## Writes -/

theorem get?_removeRange (m : Store) (r : KeyRange) (k : Key) :
    (m.removeRange r).get? k = if r.contains k then none else m.get? k := by
  rw [removeRange, SortedMap.get?_filter_key fun x => !r.contains x]
  cases r.contains k <;> rfl

/-- What an adjustment makes of a value: a counter moves, and whatever is no counter stays. -/
def adjusted (amount : Int64) (v : Option Value) : Option Value :=
  match v.bind Counter.decode? with
  | some n => some (Counter.encode (n + amount))
  | none => v

theorem get?_adjust (m : Store) (k x : Key) (amount : Int64) :
    (m.adjust k amount).get? x = if x = k then adjusted amount (m.get? k) else m.get? x := by
  unfold adjust adjusted
  cases (m.get? k).bind Counter.decode? with
  | some n => exact SortedMap.get?_insert m k x _
  | none =>
    by_cases hx : x = k
    · simp [hx]
    · simp [hx]

end Store

end Keyspace
