import Keyspace.KeyRange

/-!
Sets of keys as lists of ranges. The list is canonical: no range is empty and each ends strictly below
the start of the next. `RangeSet.ofList` makes such a list from ranges in any order.
-/
namespace Keyspace

/-- No range is empty, and each ends strictly below the start of the next. -/
structure Canonical (rs : List KeyRange) : Prop where
  nonempty : ∀ r ∈ rs, Bound.key r.low < r.high
  apart : rs.Pairwise fun a b => a.high < .key b.low

/-- A set of keys, as the ascending list of its ranges, with a gap between any two of them. -/
@[ext] structure RangeSet where
  ranges : Array KeyRange
  canonical : Canonical ranges.toList
  deriving DecidableEq

namespace Canonical

theorem nil : Canonical [] := ⟨by simp, .nil⟩

theorem cons {r : KeyRange} {rs : List KeyRange} (hr : Bound.key r.low < r.high)
    (hgap : ∀ s ∈ rs, r.high < .key s.low) (h : Canonical rs) : Canonical (r :: rs) :=
  ⟨by simpa using ⟨hr, h.nonempty⟩, List.pairwise_cons.2 ⟨hgap, h.apart⟩⟩

theorem tail {r : KeyRange} {rs : List KeyRange} (h : Canonical (r :: rs)) : Canonical rs :=
  ⟨fun s hs => h.nonempty s (List.mem_cons_of_mem _ hs), (List.pairwise_cons.1 h.apart).2⟩

theorem append {rs ss : List KeyRange} (hr : Canonical rs) (hs : Canonical ss)
    (h : ∀ r ∈ rs, ∀ s ∈ ss, r.high < .key s.low) : Canonical (rs ++ ss) :=
  ⟨fun r hm => (List.mem_append.1 hm).elim (hr.nonempty r) (hs.nonempty r),
    List.pairwise_append.2 ⟨hr.apart, hs.apart, h⟩⟩

theorem sublist {rs ss : List KeyRange} (hs : Canonical ss) (h : rs.Sublist ss) : Canonical rs :=
  ⟨fun r hr => hs.nonempty r (h.mem hr), hs.apart.sublist h⟩

end Canonical

namespace KeyRange

theorem isEmpty_eq_false_iff (r : KeyRange) : r.isEmpty = false ↔ Bound.key r.low < r.high := by
  have := r.low_le_high
  simp only [isEmpty, decide_eq_false_iff_not]
  grind

/-- The order in which ranges are merged: by start, then by end. -/
def startsBefore (a b : KeyRange) : Bool :=
  decide (a.low < b.low) || (a.low == b.low && decide (a.high ≤ b.high))

theorem startsBefore_trans (a b c : KeyRange) (hab : a.startsBefore b) (hbc : b.startsBefore c) :
    a.startsBefore c := by
  simp only [startsBefore, Bool.or_eq_true, Bool.and_eq_true, decide_eq_true_eq, beq_iff_eq] at *
  grind

theorem startsBefore_total (a b : KeyRange) : a.startsBefore b || b.startsBefore a := by
  simp only [startsBefore, Bool.or_eq_true, Bool.and_eq_true, decide_eq_true_eq, beq_iff_eq]
  grind

theorem low_le_of_startsBefore {a b : KeyRange} (h : a.startsBefore b) : a.low ≤ b.low := by
  simp only [startsBefore, Bool.or_eq_true, Bool.and_eq_true, decide_eq_true_eq, beq_iff_eq] at h
  grind

/-- The range from the start of `r` to the later of the two ends. -/
def extend (r s : KeyRange) : KeyRange :=
  if h : r.high < s.high then ⟨r.low, s.high, Std.le_trans r.low_le_high (Std.le_of_lt h)⟩ else r

@[simp] theorem low_extend (r s : KeyRange) : (r.extend s).low = r.low := by
  unfold extend; split <;> rfl

theorem high_le_high_extend (r s : KeyRange) : r.high ≤ (r.extend s).high := by
  unfold extend; split
  · next h => exact Std.le_of_lt h
  · exact Std.le_refl _

end KeyRange

namespace RangeSet

/-- Merges a range into the ranges that follow it in order of their starts. -/
def coalesceFrom (last : KeyRange) : List KeyRange → List KeyRange
  | [] => [last]
  | r :: rs =>
    if last.touches r then coalesceFrom (last.extend r) rs else last :: coalesceFrom r rs

def coalesce : List KeyRange → List KeyRange
  | [] => []
  | r :: rs => coalesceFrom r rs

theorem low_le_of_mem_coalesceFrom {last s : KeyRange} {rs : List KeyRange}
    (h : (last :: rs).Pairwise fun a b => a.low ≤ b.low) (hs : s ∈ coalesceFrom last rs) :
    last.low ≤ s.low := by
  induction rs generalizing last with
  | nil =>
    obtain rfl := by simpa [coalesceFrom] using hs
    exact Std.le_refl _
  | cons r rs ih =>
    rw [List.pairwise_cons, List.pairwise_cons] at h
    obtain ⟨hlast, hr, hrs⟩ := h
    rw [coalesceFrom] at hs
    split at hs
    · have := ih (List.pairwise_cons.2
        ⟨fun b hb => by simpa using hlast b (List.mem_cons_of_mem _ hb), hrs⟩) hs
      simpa using this
    · rcases List.mem_cons.1 hs with rfl | hs
      · exact Std.le_refl _
      · exact Std.le_trans (hlast r List.mem_cons_self) (ih (List.pairwise_cons.2 ⟨hr, hrs⟩) hs)

theorem canonical_coalesceFrom {last : KeyRange} {rs : List KeyRange}
    (hne : ∀ r ∈ last :: rs, Bound.key r.low < r.high)
    (h : (last :: rs).Pairwise fun a b => a.low ≤ b.low) : Canonical (coalesceFrom last rs) := by
  induction rs generalizing last with
  | nil => exact .cons (hne last List.mem_cons_self) (by simp) .nil
  | cons r rs ih =>
    have hall := List.pairwise_cons.1 h
    have htail := List.pairwise_cons.1 hall.2
    rw [coalesceFrom]
    split
    · refine ih (fun s hs => ?_) (List.pairwise_cons.2 ⟨fun b hb => ?_, htail.2⟩)
      · rcases List.mem_cons.1 hs with rfl | hs
        · have := hne last List.mem_cons_self
          have := last.high_le_high_extend r
          simp only [KeyRange.low_extend]
          grind
        · exact hne s (by simp [hs])
      · simpa using hall.1 b (List.mem_cons_of_mem _ hb)
    · next hgap =>
      refine .cons (hne last List.mem_cons_self) (fun s hs => ?_)
        (ih (fun s hs => hne s (List.mem_cons_of_mem _ hs)) hall.2)
      have hrs := low_le_of_mem_coalesceFrom hall.2 hs
      have hlr := hall.1 r List.mem_cons_self
      have hr := r.low_le_high
      simp only [KeyRange.touches, Bool.and_eq_true, decide_eq_true_eq, not_and] at hgap
      have h1 : Bound.key last.low ≤ r.high := Std.le_trans (b := .key r.low) (by simpa using hlr) hr
      have h2 : Bound.key r.low ≤ .key s.low := by simpa using hrs
      grind

/-- The canonical list of the keys that some range of a list holds. -/
def normalize (rs : List KeyRange) : List KeyRange :=
  coalesce ((rs.filter (!·.isEmpty)).mergeSort KeyRange.startsBefore)

theorem canonical_normalize (rs : List KeyRange) : Canonical (normalize rs) := by
  have hsorted := List.pairwise_mergeSort KeyRange.startsBefore_trans
    KeyRange.startsBefore_total (rs.filter (!·.isEmpty))
  have hne : ∀ r ∈ (rs.filter (!·.isEmpty)).mergeSort KeyRange.startsBefore,
      Bound.key r.low < r.high := fun r hr => by
    have := (List.mem_filter.1 (List.mem_mergeSort.1 hr)).2
    exact (KeyRange.isEmpty_eq_false_iff r).1 (by simpa using this)
  unfold normalize
  generalize (rs.filter (!·.isEmpty)).mergeSort KeyRange.startsBefore = ss at hsorted hne ⊢
  cases ss with
  | nil => exact .nil
  | cons r ss =>
    exact canonical_coalesceFrom hne (hsorted.imp fun h => KeyRange.low_le_of_startsBefore h)

/-- The set of the keys that some range of a list holds. -/
def ofList (rs : List KeyRange) : RangeSet :=
  ⟨(normalize rs).toArray, by simpa using canonical_normalize rs⟩

@[simp] theorem toList_ranges_ofList (rs : List KeyRange) :
    (ofList rs).ranges.toList = normalize rs := rfl

def empty : RangeSet := ⟨#[], .nil⟩

instance : Inhabited RangeSet := ⟨empty⟩

def full : RangeSet := ⟨#[.full], .cons (by simp [KeyRange.full]) (by simp) .nil⟩

def single (r : KeyRange) : RangeSet := ofList [r]

def startingWith (p : Key) : RangeSet := single (.startingWith p)

def size (s : RangeSet) : Nat := s.ranges.size

def isEmpty (s : RangeSet) : Bool := s.ranges.isEmpty

def isFull (s : RangeSet) : Bool :=
  match s.ranges.toList with
  | [r] => r.isFull
  | _ => false

/-- The least key of a set. -/
def low? (s : RangeSet) : Option Key := s.ranges[0]?.map (·.low)

/-- The bound that the keys of a set lie below, if it has keys. -/
def high? (s : RangeSet) : Option Bound := s.ranges.back?.map (·.high)

def describe (s : RangeSet) : String :=
  "\x7b" ++ ", ".intercalate (s.ranges.toList.map (·.describe)) ++ "\x7d"

end RangeSet

end Keyspace
