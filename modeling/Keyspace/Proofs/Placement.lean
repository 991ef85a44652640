import Keyspace.Proofs.RangeSet

/-!
Where ranges lie. A look-up in a range set is told by the list alone: it finds the range that a key lies in or the one
that starts nearest to it. Two ranges overlap if they share a key; they touch if no key is left out between them, and
then they are merged into one.
-/
namespace Keyspace

/-- In an ordered list the first element that satisfies a predicate comes before all others that do. -/
theorem eq_or_rel_of_find? {α : Type} {R : α → α → Prop} {p : α → Bool} {l : List α} {a x : α} (h : l.Pairwise R)
    (ha : l.find? p = some a) (hx : x ∈ l) (hp : p x = true) : x = a ∨ R a x := by
  obtain ⟨-, before, after, rfl, hbefore⟩ := List.find?_eq_some_iff_append.1 ha
  rcases List.mem_append.1 hx with hx | hx
  · have hfails := hbefore x hx
    rw [hp] at hfails
    cases hfails
  · rcases List.mem_cons.1 hx with rfl | hx
    · exact .inl rfl
    · have hrest := (List.pairwise_append.1 h).2.1
      exact .inr ((List.pairwise_cons.1 hrest).1 x hx)

/-! ## Ranges as seen from a key or a bound -/

namespace RangeSet

/-- What a key finds in a list of ranges: the range that it lies in or, if there is none, the one that starts nearest
above it. -/
inductive AtOrAfter (rs : List KeyRange) (k : Key) : Option KeyRange → Prop
  | holding {r : KeyRange} (hr : r ∈ rs) (hk : r.contains k = true) : AtOrAfter rs k (some r)
  | next {r : KeyRange} (hr : r ∈ rs) (hnone : ¬Covers rs k) (hlow : k < r.low)
      (hleast : ∀ x ∈ rs, k < x.low → r.low ≤ x.low) : AtOrAfter rs k (some r)
  | nothing (hnone : ¬Covers rs k) (habove : ∀ x ∈ rs, ¬k < x.low) : AtOrAfter rs k none

/-- What a bound finds in a list of ranges: the one that starts nearest below it. -/
inductive StartsBelow (rs : List KeyRange) (b : Bound) : Option KeyRange → Prop
  | last {r : KeyRange} (hr : r ∈ rs) (hlow : Bound.key r.low < b)
      (hgreatest : ∀ x ∈ rs, Bound.key x.low < b → x.low ≤ r.low) : StartsBelow rs b (some r)
  | nothing (hnone : ∀ x ∈ rs, ¬Bound.key x.low < b) : StartsBelow rs b none

variable {s : RangeSet} {r x : KeyRange} {k : Key} {b : Bound} {o o' : Option KeyRange}

/-- The ranges of a set share no key. -/
theorem eq_of_contains (hr : r ∈ s.ranges.toList) (hx : x ∈ s.ranges.toList) (hkr : r.contains k = true)
    (hkx : x.contains k = true) : r = x := by
  have hfound := covering?_eq_some_iff.2 ⟨hr, hkr⟩
  rw [covering?_eq_some_iff.2 ⟨hx, hkx⟩] at hfound
  exact (Option.some.inj hfound).symm

/-- Nor do they share a start. -/
theorem eq_of_low_eq (hr : r ∈ s.ranges.toList) (hx : x ∈ s.ranges.toList) (h : r.low = x.low) : r = x := by
  have hkr := s.canonical.contains_low hr
  rw [h] at hkr
  exact eq_of_contains hr hx hkr (s.canonical.contains_low hx)

/-- There is one such range at most. -/
theorem AtOrAfter.unique (h : AtOrAfter s.ranges.toList k o) (h' : AtOrAfter s.ranges.toList k o') : o = o' := by
  cases h with
  | holding hr hk =>
    cases h' with
    | holding hx hkx => rw [eq_of_contains hr hx hk hkx]
    | next hx hnone _ _ => exact absurd ⟨_, hr, hk⟩ hnone
    | nothing hnone _ => exact absurd ⟨_, hr, hk⟩ hnone
  | next hr hnone hlow hleast =>
    cases h' with
    | holding hx hkx => exact absurd ⟨_, hx, hkx⟩ hnone
    | next hx _ hlow' hleast' =>
      rw [eq_of_low_eq hr hx (Std.le_antisymm (hleast _ hx hlow') (hleast' _ hr hlow))]
    | nothing _ habove => exact absurd hlow (habove _ hr)
  | nothing hnone habove =>
    cases h' with
    | holding hx hkx => exact absurd ⟨_, hx, hkx⟩ hnone
    | next hx _ hlow' _ => exact absurd hlow' (habove _ hx)
    | nothing _ _ => rfl

/-- There is one such range at most. -/
theorem StartsBelow.unique (h : StartsBelow s.ranges.toList b o) (h' : StartsBelow s.ranges.toList b o') : o = o' := by
  cases h with
  | last hr hlow hgreatest =>
    cases h' with
    | last hx hlow' hgreatest' =>
      rw [eq_of_low_eq hr hx (Std.le_antisymm (hgreatest' _ hr hlow) (hgreatest _ hx hlow'))]
    | nothing hnone => exact absurd hlow (hnone _ hr)
  | nothing hnone =>
    cases h' with
    | last hx hlow' _ => exact absurd hlow' (hnone _ hx)
    | nothing _ => rfl

/-- The first range that ends above a key either holds it or is the next one. -/
theorem atOrAfter_atOrAfter? (s : RangeSet) (k : Key) : AtOrAfter s.ranges.toList k (s.atOrAfter? k) := by
  rw [atOrAfter?_eq_find?]
  cases hfind : s.ranges.toList.find? fun r => k.isBelow r.high with
  | none =>
    have hends : ∀ x ∈ s.ranges.toList, ¬Bound.key k < x.high := fun x hx => by
      simpa [Key.isBelow] using List.find?_eq_none.1 hfind x hx
    refine .nothing ?_ fun x hx hk => hends x hx ?_
    · rintro ⟨x, hx, hk⟩
      exact hends x hx (KeyRange.contains_iff.1 hk).2
    · exact Std.lt_trans (b := Bound.key x.low) hk (s.canonical.nonempty x hx)
  | some r =>
    have hr := List.mem_of_find?_eq_some hfind
    have hhigh : Bound.key k < r.high := by simpa [Key.isBelow] using List.find?_some hfind
    have hfirst : ∀ x ∈ s.ranges.toList, Bound.key k < x.high → x = r ∨ r.high < .key x.low := fun x hx hk =>
      eq_or_rel_of_find? s.canonical.apart hfind hx (by simpa [Key.isBelow] using hk)
    by_cases hlow : r.low ≤ k
    · exact .holding hr (KeyRange.contains_iff.2 ⟨hlow, hhigh⟩)
    · refine .next hr ?_ (Std.not_le.1 hlow) fun x hx hk => ?_
      · rintro ⟨x, hx, hk⟩
        obtain ⟨hstart, hend⟩ := KeyRange.contains_iff.1 hk
        rcases hfirst x hx hend with rfl | hgap
        · exact hlow hstart
        · exact Std.lt_irrefl (Std.lt_of_lt_of_le (Std.lt_trans hhigh hgap) hstart)
      · rcases hfirst x hx (Std.lt_trans (b := Bound.key x.low) hk (s.canonical.nonempty x hx)) with rfl | hgap
        · exact Std.le_refl _
        · exact Std.le_of_lt (a := Bound.key r.low) (Std.lt_trans (s.canonical.nonempty r hr) hgap)

theorem startsBelow_before? (s : RangeSet) (b : Bound) : StartsBelow s.ranges.toList b (s.before? b) := by
  rw [before?_eq_find?]
  cases hfind : s.ranges.toList.reverse.find? fun r => r.low.isBelow b with
  | none =>
    refine .nothing fun x hx => ?_
    simpa [Key.isBelow] using List.find?_eq_none.1 hfind x (List.mem_reverse.2 hx)
  | some r =>
    have hr := List.mem_reverse.1 (List.mem_of_find?_eq_some hfind)
    have hlow : Bound.key r.low < b := by simpa [Key.isBelow] using List.find?_some hfind
    have hapart := List.pairwise_reverse.2 s.canonical.apart
    refine .last hr hlow fun x hx hk => ?_
    rcases eq_or_rel_of_find? hapart hfind (List.mem_reverse.2 hx) (by simpa [Key.isBelow] using hk) with rfl | hgap
    · exact Std.le_refl _
    · exact Std.le_of_lt (a := Bound.key x.low) (Std.lt_trans (s.canonical.nonempty x hx) hgap)

/-- The binary searches find what reading the whole list finds. A key is in the set just if some range of the list holds
it; the look-up of a key gives the range that holds it, or else the one with the least start above the key, or else
none; and the look-up of a bound gives the range with the greatest start below it, or else none. -/
theorem lookups_exact (s : RangeSet) :
    (∀ k, s.contains k = true ↔ ∃ r ∈ s.ranges.toList, r.contains k = true) ∧
    (∀ k o, s.atOrAfter? k = o ↔ AtOrAfter s.ranges.toList k o) ∧
    ∀ b o, s.before? b = o ↔ StartsBelow s.ranges.toList b o := by
  refine ⟨fun k => contains_iff, fun k o => ⟨?_, (s.atOrAfter_atOrAfter? k).unique⟩, fun b o =>
    ⟨?_, (s.startsBelow_before? b).unique⟩⟩
  · rintro rfl
    exact s.atOrAfter_atOrAfter? k
  · rintro rfl
    exact s.startsBelow_before? b

end RangeSet

/-! ## Ranges as seen from another range -/

namespace KeyRange

variable {r s : KeyRange} {k : Key}

theorem isEmpty_of_contains (h : r.contains k = true) : r.isEmpty = false := by
  rw [← Bool.not_eq_true, isEmpty_iff]
  intro hnone
  rw [hnone k] at h
  cases h

/-- Two ranges overlap just if they have a key in common. -/
theorem overlaps_iff : r.overlaps s = true ↔ ∃ k, r.contains k = true ∧ s.contains k = true := by
  simp only [overlaps, Bool.and_eq_true, Bool.not_eq_true', Key.isBelow, decide_eq_true_eq]
  constructor
  · rintro ⟨⟨⟨hr, hs⟩, hrs⟩, hsr⟩
    -- the later one of the two starts is a common key
    rcases Std.le_total (a := r.low) (b := s.low) with hle | hle
    · exact ⟨s.low, contains_iff.2 ⟨hle, hsr⟩, contains_low_iff.2 hs⟩
    · exact ⟨r.low, contains_low_iff.2 hr, contains_iff.2 ⟨hle, hrs⟩⟩
  · rintro ⟨k, hr, hs⟩
    refine ⟨⟨⟨isEmpty_of_contains hr, isEmpty_of_contains hs⟩, ?_⟩, ?_⟩
    · exact Std.lt_of_le_of_lt (contains_iff.1 hr).1 (contains_iff.1 hs).2
    · exact Std.lt_of_le_of_lt (contains_iff.1 hs).1 (contains_iff.1 hr).2

theorem touches_comm (r s : KeyRange) : r.touches s = s.touches r := Bool.and_comm ..

/-- A key has a key of one range at or below it and a key of the other one at or above it. -/
def Between (r s : KeyRange) (k : Key) : Prop :=
  ∃ x y, r.contains x = true ∧ s.contains y = true ∧ (x ≤ k ∧ k ≤ y ∨ y ≤ k ∧ k ≤ x)

theorem Between.symm (h : Between r s k) : Between s r k := by
  obtain ⟨x, y, hx, hy, hk⟩ := h
  exact ⟨y, x, hy, hx, hk.symm⟩

theorem contains_of_touches_of_le {x y : Key} (h : r.touches s = true) (hx : r.contains x = true)
    (hy : s.contains y = true) (hlow : x ≤ k) (hhigh : k ≤ y) : r.contains k = true ∨ s.contains k = true := by
  have hlow : Bound.key x ≤ .key k := hlow
  have hhigh : Bound.key k ≤ .key y := hhigh
  rw [touches_iff] at h
  rw [contains_iff] at hx hy ⊢
  rw [contains_iff]
  grind

/-- Ranges that touch leave out no key between them. -/
theorem contains_of_touches (h : r.touches s = true) (hk : Between r s k) :
    r.contains k = true ∨ s.contains k = true := by
  obtain ⟨x, y, hx, hy, ⟨hlow, hhigh⟩ | ⟨hlow, hhigh⟩⟩ := hk
  · exact contains_of_touches_of_le h hx hy hlow hhigh
  · exact (contains_of_touches_of_le (touches_comm r s ▸ h) hy hx hlow hhigh).symm

/-- If a range ends below the start of another one, its end is left out between them. -/
theorem exists_between_of_high_lt (hr : r.isEmpty = false) (hs : s.isEmpty = false) (h : r.high < .key s.low) :
    ∃ k, Between r s k ∧ r.contains k = false ∧ s.contains k = false := by
  cases hhigh : r.high with
  | top => simp [hhigh] at h
  | key k =>
    have hlow := r.low_le_high
    rw [hhigh] at h hlow
    refine ⟨k, ⟨r.low, s.low, contains_low_iff.2 hr, contains_low_iff.2 hs, .inl ⟨hlow, Std.le_of_lt h⟩⟩, ?_, ?_⟩
    · exact contains_eq_false_iff.2 (.inr (hhigh ▸ Std.le_refl _))
    · exact contains_eq_false_iff.2 (.inl h)

/-- Ranges with keys touch just if no key lies between them outside both. -/
theorem touches_iff_not_exists_between (hr : r.isEmpty = false) (hs : s.isEmpty = false) :
    r.touches s = true ↔ ¬∃ k, Between r s k ∧ r.contains k = false ∧ s.contains k = false := by
  constructor
  · rintro htouch ⟨k, hk, hkr, hks⟩
    rcases contains_of_touches htouch hk with h | h
    · simp [hkr] at h
    · simp [hks] at h
  · intro hnone
    refine touches_iff.2 ⟨Std.not_lt.1 fun h => hnone (exists_between_of_high_lt hr hs h), Std.not_lt.1 fun h => ?_⟩
    obtain ⟨k, hk, hks, hkr⟩ := exists_between_of_high_lt hs hr h
    exact hnone ⟨k, hk.symm, hkr, hks⟩

end KeyRange

namespace RangeSet

variable {r s : KeyRange}

theorem normalize_pair (hr : r.isEmpty = false) (hs : s.isEmpty = false) :
    normalize [r, s] = if r.startsBefore s then coalesceFrom r [s] else coalesceFrom s [r] := by
  have hkeep : [r, s].filter (!·.isEmpty) = [r, s] := by simp [hr, hs]
  have hsort : [r, s].mergeSort KeyRange.startsBefore = if r.startsBefore s then [r, s] else [s, r] := by
    simp [List.mergeSort, List.MergeSort.Internal.splitInTwo, List.merge]
  rw [normalize, hkeep, hsort]
  split <;> rfl

/-- Two ranges that touch make up one range, and two that do not stay apart. -/
theorem size_ofList_pair (hr : r.isEmpty = false) (hs : s.isEmpty = false) :
    (ofList [r, s]).ranges.size = if r.touches s then 1 else 2 := by
  have hmerge (a b : KeyRange) : (coalesceFrom a [b]).length = if a.touches b then 1 else 2 := by
    rw [coalesceFrom]
    split <;> rfl
  rw [← Array.length_toList, toList_ranges_ofList, normalize_pair hr hs]
  split
  · exact hmerge r s
  · rw [hmerge, KeyRange.touches_comm]

end RangeSet

namespace KeyRange

/-- The relations between two ranges and their keys. They overlap just if they have a key in common. If both have keys,
they touch just if they are merged into one range, and that is so just if no key outside both of them lies between
them. -/
theorem overlaps_touches_exact (r s : KeyRange) :
    (r.overlaps s = true ↔ ∃ k, r.contains k = true ∧ s.contains k = true) ∧
    (r.isEmpty = false → s.isEmpty = false →
      (r.touches s = true ↔ (RangeSet.ofList [r, s]).ranges.size = 1) ∧
      (r.touches s = true ↔ ¬∃ k, Between r s k ∧ r.contains k = false ∧ s.contains k = false)) := by
  refine ⟨overlaps_iff, fun hr hs => ⟨?_, touches_iff_not_exists_between hr hs⟩⟩
  rw [RangeSet.size_ofList_pair hr hs]
  cases r.touches s <;> simp

/-- Ranges that abut share no key and become one range; of two ranges that a single key keeps apart, none is lost. -/
theorem overlaps_touches_exact_abutting :
    let r : KeyRange := ⟨[0x10], .key [0x20], by decide⟩
    let s : KeyRange := ⟨[0x20], .key [0x30], by decide⟩
    let t : KeyRange := ⟨[0x20, 0], .key [0x30], by decide⟩
    (r.isEmpty = false ∧ s.isEmpty = false ∧ t.isEmpty = false) ∧
      (¬∃ k, r.contains k = true ∧ s.contains k = true) ∧ (RangeSet.ofList [r, s]).ranges.size = 1 ∧
      (RangeSet.ofList [r, t]).ranges.size ≠ 1 ∧
      ∃ k, Between r t k ∧ r.contains k = false ∧ t.contains k = false := by
  intro r s t
  have hr : r.isEmpty = false := by decide
  have hs : s.isEmpty = false := by decide
  have ht : t.isEmpty = false := by decide
  obtain ⟨hoverlap, hrs⟩ := overlaps_touches_exact r s
  obtain ⟨hmerged, hgap⟩ := (overlaps_touches_exact r t).2 hr ht
  have hapart : ¬r.touches t = true := by decide
  refine ⟨⟨hr, hs, ht⟩, mt hoverlap.2 (by decide), (hrs hr hs).1.1 (by decide), mt hmerged.2 hapart, ?_⟩
  exact Classical.not_not.1 (mt hgap.2 hapart)

end KeyRange

end Keyspace
