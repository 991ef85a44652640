import Keyspace.RangeSet.Lookup
import Keyspace.RangeSet.Algebra

/-!
Adding one range to a set and taking one away. An added range replaces the run of ranges it touches,
which two binary searches find; the rest of the list stays as it is.
-/
namespace Keyspace.RangeSet

/-- The number of ranges that end strictly below the start of `r`. -/
def leftOf (s : RangeSet) (r : KeyRange) : Nat :=
  partitionPoint s.ranges fun x => decide (x.high < .key r.low)

/-- The number of ranges that start at or below the end of `r`. -/
def upTo (s : RangeSet) (r : KeyRange) : Nat :=
  partitionPoint s.ranges fun x => decide (Bound.key x.low ≤ r.high)

theorem low_le_low_of_lt {s : RangeSet} {i j : Nat} (hi : i < s.ranges.size) (hj : j < s.ranges.size)
    (hij : i < j) : s.ranges[i].high < .key s.ranges[j].low := by
  have := List.pairwise_iff_getElem.1 s.canonical.apart i j (by simpa using hi) (by simpa using hj) hij
  simpa using this

theorem lt_high (s : RangeSet) {i : Nat} (hi : i < s.ranges.size) :
    Bound.key s.ranges[i].low < s.ranges[i].high :=
  s.canonical.nonempty _ (by simp)

theorem high_lt_of_lt_leftOf {s : RangeSet} {r : KeyRange} {i : Nat} (hi : i < s.ranges.size)
    (h : i < s.leftOf r) : s.ranges[i].high < .key r.low := by
  have hp : s.ranges.toList.Pairwise fun a b =>
      decide (b.high < .key r.low) → decide (a.high < .key r.low) :=
    List.pairwise_iff_getElem.2 fun i j hi hj hij hb => by
      have := low_le_low_of_lt (s := s) (by simpa using hi) (by simpa using hj) hij
      have := s.lt_high (i := j) (by simpa using hj)
      simp only [Array.getElem_toList, decide_eq_true_eq] at *
      grind
  simpa using of_lt_partitionPoint hp hi h

theorem le_high_of_leftOf_le {s : RangeSet} {r : KeyRange} {i : Nat} (hi : i < s.ranges.size)
    (h : s.leftOf r ≤ i) : Bound.key r.low ≤ s.ranges[i].high := by
  have hp : s.ranges.toList.Pairwise fun a b =>
      decide (b.high < .key r.low) → decide (a.high < .key r.low) :=
    List.pairwise_iff_getElem.2 fun i j hi hj hij hb => by
      have := low_le_low_of_lt (s := s) (by simpa using hi) (by simpa using hj) hij
      have := s.lt_high (i := j) (by simpa using hj)
      simp only [Array.getElem_toList, decide_eq_true_eq] at *
      grind
  have := eq_false_of_partitionPoint_le hp hi h
  simp only [decide_eq_false_iff_not] at this
  grind

theorem pairwise_starts (s : RangeSet) (r : KeyRange) : s.ranges.toList.Pairwise fun a b =>
    decide (Bound.key b.low ≤ r.high) → decide (Bound.key a.low ≤ r.high) :=
  List.pairwise_iff_getElem.2 fun i j hi hj hij hb => by
    have := low_le_low_of_lt (s := s) (by simpa using hi) (by simpa using hj) hij
    have := s.lt_high (i := i) (by simpa using hi)
    simp only [Array.getElem_toList, decide_eq_true_eq] at *
    grind

theorem low_le_of_lt_upTo {s : RangeSet} {r : KeyRange} {i : Nat} (hi : i < s.ranges.size)
    (h : i < s.upTo r) : Bound.key s.ranges[i].low ≤ r.high := by
  simpa using of_lt_partitionPoint (s.pairwise_starts r) hi h

theorem lt_low_of_upTo_le {s : RangeSet} {r : KeyRange} {i : Nat} (hi : i < s.ranges.size)
    (h : s.upTo r ≤ i) : r.high < .key s.ranges[i].low := by
  have := eq_false_of_partitionPoint_le (s.pairwise_starts r) hi h
  simp only [decide_eq_false_iff_not] at this
  grind

theorem key_ite_le_key (a b : Key) : Bound.key (if a < b then a else b) ≤ .key b := by
  rw [Bound.key_le_key]
  split <;> grind

/-- The range that takes the place of the ranges that `r` touches: from the earlier start of `r` and
the first of them to the later end of `r` and the last of them. -/
def merged (s : RangeSet) (r : KeyRange) (hlt : s.leftOf r < s.upTo r) : KeyRange :=
  have hstop : s.upTo r ≤ s.ranges.size := partitionPoint_le_size
  let first := s.ranges[s.leftOf r]
  let last := s.ranges[s.upTo r - 1]
  ⟨if first.low < r.low then first.low else r.low, last.high.max r.high,
    Std.le_trans (key_ite_le_key _ _) (Std.le_trans r.low_le_high (Bound.le_max_right _ _))⟩

theorem mem_take_ranges {s : RangeSet} {n : Nat} {x : KeyRange} (h : x ∈ s.ranges.toList.take n) :
    ∃ i, ∃ hi : i < s.ranges.size, i < n ∧ s.ranges[i] = x := by
  obtain ⟨i, hi, rfl⟩ := List.mem_iff_getElem.1 h
  simp only [List.length_take, Array.length_toList] at hi
  exact ⟨i, by omega, by omega, by simp⟩

theorem mem_drop_ranges {s : RangeSet} {n : Nat} {x : KeyRange} (h : x ∈ s.ranges.toList.drop n) :
    ∃ i, ∃ hi : i < s.ranges.size, n ≤ i ∧ s.ranges[i] = x := by
  obtain ⟨i, hi, rfl⟩ := List.mem_iff_getElem.1 h
  simp only [List.length_drop, Array.length_toList] at hi
  exact ⟨n + i, by omega, by omega, by simp⟩

theorem canonical_splice {s : RangeSet} {r m : KeyRange} {n : Nat}
    (hm : Bound.key m.low < m.high) (hn : s.leftOf r ≤ n)
    (hleft : ∀ i (hi : i < s.ranges.size), i < s.leftOf r → s.ranges[i].high < .key m.low)
    (hright : ∀ i (hi : i < s.ranges.size), n ≤ i → m.high < .key s.ranges[i].low) :
    Canonical (s.ranges.toList.take (s.leftOf r) ++ m :: s.ranges.toList.drop n) := by
  refine (s.canonical.sublist (List.take_sublist _ _)).append
    (.cons hm (fun x hx => ?_) (s.canonical.sublist (List.drop_sublist _ _))) fun x hx y hy => ?_
  · obtain ⟨i, hi, hni, rfl⟩ := mem_drop_ranges hx
    exact hright i hi hni
  · obtain ⟨i, hi, hni, rfl⟩ := mem_take_ranges hx
    rcases List.mem_cons.1 hy with rfl | hy
    · exact hleft i hi hni
    · obtain ⟨j, hj, hnj, rfl⟩ := mem_drop_ranges hy
      exact low_le_low_of_lt hi hj (by omega)

def add (s : RangeSet) (r : KeyRange) : RangeSet :=
  if hr : r.isEmpty then s
  else if hlt : s.leftOf r < s.upTo r then
    ⟨(s.ranges.toList.take (s.leftOf r) ++ s.merged r hlt :: s.ranges.toList.drop (s.upTo r)).toArray,
      by
        have hsize : s.upTo r ≤ s.ranges.size := partitionPoint_le_size
        have hne := (KeyRange.isEmpty_eq_false_iff r).1 (by simpa using hr)
        refine canonical_splice ?_ (by omega) (fun i hi h => ?_) fun i hi h => ?_
        · exact Std.lt_of_le_of_lt (key_ite_le_key _ _)
            (Std.lt_of_lt_of_le hne (Bound.le_max_right _ _))
        · have := high_lt_of_lt_leftOf hi h
          have := low_le_low_of_lt hi (by omega) h
          simp only [merged]
          split <;> assumption
        · have := lt_low_of_upTo_le hi h
          have := low_le_low_of_lt (s := s) (i := s.upTo r - 1) (by omega) hi (by omega)
          simp only [merged, Bound.max]
          split <;> assumption⟩
  else
    ⟨(s.ranges.toList.take (s.leftOf r) ++ r :: s.ranges.toList.drop (s.leftOf r)).toArray,
      canonical_splice ((KeyRange.isEmpty_eq_false_iff r).1 (by simpa using hr)) (Nat.le_refl _)
        (fun _ hi h => high_lt_of_lt_leftOf hi h) fun _ hi h => lt_low_of_upTo_le hi (by omega)⟩

def remove (s : RangeSet) (r : KeyRange) : RangeSet := s.inter (single r).compl

end Keyspace.RangeSet
