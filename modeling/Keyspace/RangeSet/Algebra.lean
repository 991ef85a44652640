import Keyspace.RangeSet

/-!
Union, intersection and complement of range sets. The intersection walks both lists at once; the
complement walks one list and collects the gaps, which are canonical as they stand.
-/
namespace Keyspace.RangeSet

def union (s t : RangeSet) : RangeSet := ofList (s.ranges.toList ++ t.ranges.toList)

/-- The common part of two ranges, if it has a key. -/
def common? (a b : KeyRange) : Option KeyRange :=
  let low := if a.low < b.low then b.low else a.low
  let high := a.high.min b.high
  if h : Bound.key low < high then some ⟨low, high, Std.le_of_lt h⟩ else none

/-- The common parts of two lists of ranges; the list whose first range ends first moves on. -/
def commonParts : List KeyRange → List KeyRange → List KeyRange
  | a :: as, b :: bs =>
    let rest :=
      if a.high < b.high then commonParts as (b :: bs)
      else if b.high < a.high then commonParts (a :: as) bs
      else commonParts as bs
    match common? a b with
    | some r => r :: rest
    | none => rest
  | _, _ => []
termination_by as bs => as.length + bs.length

def inter (s t : RangeSet) : RangeSet := ofList (commonParts s.ranges.toList t.ranges.toList)

/-- The gap between two keys, if there is one. -/
def gap? (a b : Key) : Option KeyRange :=
  if h : a < b then some ⟨a, .key b, by simpa using Std.le_of_lt h⟩ else none

/-- The gaps from a key on before, between and after the ranges of a list. -/
def gapsFrom (start : Key) : List KeyRange → List KeyRange
  | [] => [⟨start, .top, by simp⟩]
  | r :: rs =>
    (gap? start r.low).toList ++
      match r.high with
      | .key k => gapsFrom k rs
      | .top => []

theorem le_low_of_mem_gapsFrom {start : Key} {rs : List KeyRange} {g : KeyRange}
    (hrs : Canonical rs) (hstart : ∀ r ∈ rs, start ≤ r.low) (hg : g ∈ gapsFrom start rs) :
    start ≤ g.low := by
  induction rs generalizing start with
  | nil =>
    obtain rfl := by simpa [gapsFrom] using hg
    exact Std.le_refl _
  | cons r rs ih =>
    have hlow := hstart r List.mem_cons_self
    have hne := hrs.nonempty r List.mem_cons_self
    have hgap := (List.pairwise_cons.1 hrs.apart).1
    rw [gapsFrom, List.mem_append] at hg
    rcases hg with hg | hg
    · unfold gap? at hg
      split at hg <;> grind
    · split at hg
      · next k hk =>
        have := ih hrs.tail (fun s hs => by have := hgap s hs; grind) hg
        grind
      · simp at hg

theorem canonical_gapsFrom {start : Key} {rs : List KeyRange} (hrs : Canonical rs)
    (hstart : ∀ r ∈ rs, start ≤ r.low) : Canonical (gapsFrom start rs) := by
  induction rs generalizing start with
  | nil => exact .cons (by simp) (by simp) .nil
  | cons r rs ih =>
    have hlow := hstart r List.mem_cons_self
    have hne := hrs.nonempty r List.mem_cons_self
    have hgap := (List.pairwise_cons.1 hrs.apart).1
    have hhead : Canonical (gap? start r.low).toList := by
      unfold gap?
      split
      · next h => exact .cons (by simpa using h) (by simp) .nil
      · exact .nil
    rw [gapsFrom]
    split
    · next k hk =>
      have hk' : ∀ s ∈ rs, k ≤ s.low := fun s hs => by have := hgap s hs; grind
      refine hhead.append (ih hrs.tail hk') fun g hg s hs => ?_
      have := le_low_of_mem_gapsFrom hrs.tail hk' hs
      unfold gap? at hg
      split at hg <;> grind
    · simpa using hhead

def compl (s : RangeSet) : RangeSet :=
  ⟨(gapsFrom [] s.ranges.toList).toArray, by
    simpa using canonical_gapsFrom s.canonical fun _ _ => Std.not_lt.1 (List.not_lt_nil _)⟩

end Keyspace.RangeSet
