import Keyspace.Proofs.KeyRange
import Keyspace.RangeSet.Update

/-!
The keys of a range set. The binary searches find what a walk along the list would find, and building,
uniting, intersecting and adding are the operations on sets of keys that they are named for.
-/
namespace Keyspace

/-- A binary search finds the first element on which the predicate fails. -/
theorem getElem?_partitionPoint {α : Type} {xs : Array α} {p : α → Bool}
    (hp : xs.toList.Pairwise fun a b => p b → p a) :
    xs[partitionPoint xs p]? = xs.toList.find? fun a => !p a := by
  by_cases hlt : partitionPoint xs p < xs.size
  · rw [Array.getElem?_eq_getElem hlt, eq_comm, List.find?_eq_some_iff_getElem]
    have hfail := eq_false_of_partitionPoint_le hp hlt (Nat.le_refl _)
    refine ⟨by simp [hfail], partitionPoint xs p, hlt, by simp, ?_⟩
    intro j hj
    simpa using of_lt_partitionPoint hp (Nat.lt_trans hj hlt) hj
  · have hsize : partitionPoint xs p = xs.size :=
      Nat.le_antisymm partitionPoint_le_size (Nat.le_of_not_lt hlt)
    rw [Array.getElem?_eq_none (Nat.le_of_not_lt hlt), eq_comm, List.find?_eq_none]
    intro a ha
    obtain ⟨i, hi, rfl⟩ := List.mem_iff_getElem.1 ha
    have := of_lt_partitionPoint hp (i := i) (by simpa using hi) (by simpa [hsize] using hi)
    simpa using this

/-- The last element on which a predicate holds comes just before the first one on which it fails. -/
theorem getElem?_pred_partitionPoint {α : Type} {xs : Array α} {p : α → Bool}
    (hp : xs.toList.Pairwise fun a b => p b → p a) :
    (match partitionPoint xs p with
      | 0 => none
      | n + 1 => xs[n]?) = xs.toList.reverse.find? p := by
  have hdrop : ∀ a ∈ xs.toList.drop (partitionPoint xs p), ¬p a = true := by
    intro a ha
    obtain ⟨i, hi, rfl⟩ := List.mem_drop_iff_getElem.1 ha
    rw [Array.length_toList, Nat.add_comm] at hi
    simp [eq_false_of_partitionPoint_le hp hi (Nat.le_add_right ..)]
  have htake : ∀ a ∈ xs.toList.take (partitionPoint xs p), p a = true := by
    intro a ha
    obtain ⟨i, hi, rfl⟩ := List.mem_take_iff_getElem.1 ha
    rw [Nat.lt_min, Array.length_toList] at hi
    exact of_lt_partitionPoint hp hi.2 hi.1
  have hfind : xs.toList.reverse.find? p = (xs.toList.take (partitionPoint xs p)).getLast? := by
    conv => lhs; rw [← List.take_append_drop (partitionPoint xs p) xs.toList]
    rw [List.reverse_append, List.find?_append,
      List.find?_eq_none.2 fun a ha => hdrop a (List.mem_reverse.1 ha), Option.none_or, ← List.head?_reverse,
      ← List.head?_filter, List.filter_eq_self.2 fun a ha => htake a (List.mem_reverse.1 ha)]
  rw [hfind]
  have hle : partitionPoint xs p ≤ xs.size := partitionPoint_le_size
  cases hn : partitionPoint xs p with
  | zero => simp
  | succ n =>
    rw [hn] at hle
    rw [List.getLast?_take, if_neg (Nat.succ_ne_zero n), Nat.add_sub_cancel, Array.getElem?_toList,
      Array.getElem?_eq_getElem hle, Option.some_or]
    exact Array.getElem?_eq_getElem hle

/-- Some range of a list holds the key. -/
def Covers (rs : List KeyRange) (k : Key) : Prop := ∃ r ∈ rs, r.contains k = true

namespace Covers

variable {r : KeyRange} {rs ss : List KeyRange} {k : Key}

@[simp] theorem nil : ¬Covers [] k := by simp [Covers]

@[simp] theorem cons : Covers (r :: rs) k ↔ r.contains k = true ∨ Covers rs k := by simp [Covers]

@[simp] theorem append : Covers (rs ++ ss) k ↔ Covers rs k ∨ Covers ss k := by
  simp only [Covers, List.mem_append, or_and_right, exists_or]

end Covers

namespace Canonical

variable {r x : KeyRange} {rs ss : List KeyRange} {k : Key}

theorem high_lt_low (h : Canonical (rs ++ ss)) (hr : r ∈ rs) (hx : x ∈ ss) : r.high < .key x.low :=
  (List.pairwise_append.1 h.apart).2.2 r hr x hx

theorem head_high_lt_low (h : Canonical (r :: rs)) (hx : x ∈ rs) : r.high < .key x.low :=
  (List.pairwise_cons.1 h.apart).1 x hx

/-- A range of a canonical list holds the key that it starts at. -/
theorem contains_low (h : Canonical rs) (hr : r ∈ rs) : r.contains r.low = true :=
  KeyRange.contains_iff.2 ⟨Std.le_refl _, h.nonempty r hr⟩

/-- No range beside the first one holds a key below the end of the first one. -/
theorem not_covers_tail (h : Canonical (r :: rs)) (hk : Bound.key k < r.high) : ¬Covers rs k := by
  rintro ⟨x, hx, hkx⟩
  have := h.head_high_lt_low hx
  rw [KeyRange.contains_iff] at hkx
  grind

end Canonical

namespace RangeSet

theorem pairwise_ends (s : RangeSet) (k : Key) :
    s.ranges.toList.Pairwise fun a b => (!k.isBelow b.high) → !k.isBelow a.high :=
  s.canonical.apart.imp_of_mem fun {a b} _ hb hab => by
    have := s.canonical.nonempty b hb
    simp only [Key.isBelow, Bool.not_eq_true', decide_eq_false_iff_not]
    grind

theorem atOrAfter?_eq_find? (s : RangeSet) (k : Key) :
    s.atOrAfter? k = s.ranges.toList.find? fun r => k.isBelow r.high := by
  simp [atOrAfter?, getElem?_partitionPoint (s.pairwise_ends k)]

theorem pairwise_lows (s : RangeSet) (b : Bound) :
    s.ranges.toList.Pairwise fun x y => y.low.isBelow b → x.low.isBelow b :=
  s.canonical.apart.imp_of_mem fun {x y} hx _ hxy hy => by
    have := s.canonical.nonempty x hx
    simp only [Key.isBelow, decide_eq_true_eq] at hy ⊢
    grind

theorem before?_eq_find? (s : RangeSet) (b : Bound) :
    s.before? b = s.ranges.toList.reverse.find? fun r => r.low.isBelow b :=
  getElem?_pred_partitionPoint (s.pairwise_lows b)

/-- The range that is found for a key is the one of the set that holds it. -/
theorem covering?_eq_some_iff {s : RangeSet} {k : Key} {r : KeyRange} :
    s.covering? k = some r ↔ r ∈ s.ranges.toList ∧ r.contains k = true := by
  rw [covering?, atOrAfter?_eq_find?, Option.filter_eq_some_iff]
  refine and_congr_left fun hk => ⟨List.mem_of_find?_eq_some, fun hmem => ?_⟩
  obtain ⟨rs, ss, hsplit⟩ := List.append_of_mem hmem
  have hcan := s.canonical
  rw [hsplit] at hcan
  rw [KeyRange.contains_iff] at hk
  refine List.find?_eq_some_iff_append.2 ⟨by simpa [Key.isBelow] using hk.2, rs, ss, hsplit, ?_⟩
  intro x hx
  have := hcan.high_lt_low hx (x := r) (by simp)
  simp only [Key.isBelow, Bool.not_eq_true', decide_eq_false_iff_not]
  grind

theorem covering?_eq_none_iff {s : RangeSet} {k : Key} :
    s.covering? k = none ↔ s.contains k = false := by
  simp [contains]

theorem contains_iff {s : RangeSet} {k : Key} : s.contains k = true ↔ Covers s.ranges.toList k := by
  simp [contains, Option.isSome_iff_exists, covering?_eq_some_iff, Covers]

@[simp] theorem contains_empty (k : Key) : empty.contains k = false := by
  rw [← Bool.not_eq_true, contains_iff]
  simp [empty]

/-- A set without ranges is one without keys. -/
theorem isEmpty_iff {s : RangeSet} : s.isEmpty = true ↔ ∀ k, s.contains k = false := by
  constructor
  · intro h k
    rw [← Bool.not_eq_true, contains_iff]
    simp only [isEmpty, Array.isEmpty_iff] at h
    simp [h]
  · intro h
    rw [isEmpty, Array.isEmpty_iff, ← Array.toList_eq_nil_iff, List.eq_nil_iff_forall_not_mem]
    intro r hr
    have hmem : s.contains r.low = true := contains_iff.2 ⟨r, hr, s.canonical.contains_low hr⟩
    rw [h] at hmem
    exact absurd hmem (by simp)

/-! ## Building -/

theorem contains_extend {r s : KeyRange} {k : Key} (htouch : r.touches s = true) (hlow : r.low ≤ s.low) :
    (r.extend s).contains k = true ↔ r.contains k = true ∨ s.contains k = true := by
  rw [KeyRange.touches_iff] at htouch
  have hlow : Bound.key r.low ≤ .key s.low := hlow
  simp only [KeyRange.contains_iff, KeyRange.low_extend]
  unfold KeyRange.extend
  split <;> grind

/-- Merging ranges in the order of their starts keeps the keys that they cover. -/
theorem covers_coalesceFrom {last : KeyRange} {rs : List KeyRange} {k : Key}
    (h : (last :: rs).Pairwise fun a b => a.low ≤ b.low) :
    Covers (coalesceFrom last rs) k ↔ Covers (last :: rs) k := by
  induction rs generalizing last with
  | nil => simp [coalesceFrom]
  | cons r rs ih =>
    obtain ⟨hlast, hr⟩ := List.pairwise_cons.1 h
    rw [coalesceFrom]
    split
    · next htouch =>
      have hnext : (last.extend r :: rs).Pairwise fun a b => a.low ≤ b.low :=
        List.pairwise_cons.2 ⟨fun b hb => by simpa using hlast b (by simp [hb]), hr.of_cons⟩
      rw [ih hnext, Covers.cons, contains_extend htouch (hlast r (by simp)), or_assoc, ← Covers.cons,
        ← Covers.cons]
    · rw [Covers.cons, ih hr, ← Covers.cons]

/-- The canonical list covers the same keys. -/
theorem covers_normalize {rs : List KeyRange} {k : Key} : Covers (normalize rs) k ↔ Covers rs k := by
  have hsorted := List.pairwise_mergeSort KeyRange.startsBefore_trans
    KeyRange.startsBefore_total (rs.filter (!·.isEmpty))
  -- dropping the empty ranges and sorting the others keeps the keys
  have hsame : Covers ((rs.filter (!·.isEmpty)).mergeSort KeyRange.startsBefore) k ↔ Covers rs k := by
    simp only [Covers, List.mem_mergeSort, List.mem_filter, Bool.not_eq_true']
    refine exists_congr fun r => ⟨fun h => ⟨h.1.1, h.2⟩, fun h => ⟨⟨h.1, ?_⟩, h.2⟩⟩
    rw [← Bool.not_eq_true, KeyRange.isEmpty_iff]
    intro hempty
    simp [hempty k] at h
  rw [← hsame, normalize]
  generalize (rs.filter (!·.isEmpty)).mergeSort KeyRange.startsBefore = ss at hsorted
  cases ss with
  | nil => simp [coalesce]
  | cons r ss => exact covers_coalesceFrom (hsorted.imp fun h => KeyRange.low_le_of_startsBefore h)

theorem contains_ofList {rs : List KeyRange} {k : Key} :
    (ofList rs).contains k = true ↔ Covers rs k := by
  rw [contains_iff, toList_ranges_ofList, covers_normalize]

@[simp] theorem contains_single {r : KeyRange} {k : Key} : (single r).contains k = r.contains k := by
  rw [Bool.eq_iff_iff, single, contains_ofList]
  simp

theorem contains_union {s t : RangeSet} {k : Key} :
    (s.union t).contains k = true ↔ s.contains k = true ∨ t.contains k = true := by
  rw [union, contains_ofList, Covers.append, contains_iff, contains_iff]

/-! ## Intersecting -/

theorem common?_eq_none {a b : KeyRange} {k : Key} (h : common? a b = none) :
    ¬(a.contains k = true ∧ b.contains k = true) := by
  simp only [KeyRange.contains_iff]
  unfold common? Bound.min at h
  grind

theorem contains_common? {a b r : KeyRange} {k : Key} (h : common? a b = some r) :
    r.contains k = true ↔ a.contains k = true ∧ b.contains k = true := by
  simp only [KeyRange.contains_iff]
  unfold common? Bound.min at h
  grind

/-- What two lists have in common lies in the common part of their first ranges, or it is left when the
range that ends first moves on; if neither ends first, both do. -/
theorem covers_both_iff {a b : KeyRange} {as bs : List KeyRange} {k : Key} (rest : List KeyRange)
    (ha : Canonical (a :: as)) (hb : Canonical (b :: bs))
    (hrest : Covers rest k ↔
      if a.high < b.high then Covers as k ∧ Covers (b :: bs) k
      else if b.high < a.high then Covers (a :: as) k ∧ Covers bs k
      else Covers as k ∧ Covers bs k) :
    Covers (a :: as) k ∧ Covers (b :: bs) k ↔
      (a.contains k = true ∧ b.contains k = true) ∨ Covers rest k := by
  have has : Bound.key k < a.high → ¬Covers as k := ha.not_covers_tail
  have hbs : Bound.key k < b.high → ¬Covers bs k := hb.not_covers_tail
  have hka : a.contains k = true → Bound.key k < a.high := fun h => (KeyRange.contains_iff.1 h).2
  have hkb : b.contains k = true → Bound.key k < b.high := fun h => (KeyRange.contains_iff.1 h).2
  rw [hrest]
  simp only [Covers.cons]
  split
  · grind
  · split <;> grind

/-- The common parts cover the keys that both lists cover. -/
theorem covers_commonParts {as bs : List KeyRange} {k : Key} (ha : Canonical as) (hb : Canonical bs) :
    Covers (commonParts as bs) k ↔ Covers as k ∧ Covers bs k := by
  fun_induction commonParts as bs with
  | case1 a as b bs rest r hr ih1 ih2 ih3 =>
    have hrest := covers_both_iff (k := k) rest ha hb (by
      simp only [rest]
      split
      · exact ih1 ha.tail hb
      · split
        · exact ih2 ha hb.tail
        · exact ih3 ha.tail hb.tail)
    rw [hrest, Covers.cons, contains_common? hr]
  | case2 a as b bs rest hnone ih1 ih2 ih3 =>
    have hrest := covers_both_iff (k := k) rest ha hb (by
      simp only [rest]
      split
      · exact ih1 ha.tail hb
      · split
        · exact ih2 ha hb.tail
        · exact ih3 ha.tail hb.tail)
    rw [hrest, or_iff_right (common?_eq_none hnone)]
  | case3 as bs h =>
    rcases as with - | ⟨a, as⟩
    · simp
    · rcases bs with - | ⟨b, bs⟩
      · simp
      · exact absurd rfl (h a as b bs rfl)

theorem contains_inter {s t : RangeSet} {k : Key} :
    (s.inter t).contains k = true ↔ s.contains k = true ∧ t.contains k = true := by
  rw [inter, contains_ofList, covers_commonParts s.canonical t.canonical, contains_iff, contains_iff]

/-- Two sets without a common range have no key in common. -/
theorem inter_isEmpty_iff {s t : RangeSet} :
    (s.inter t).isEmpty = true ↔ ∀ k, s.contains k = true → t.contains k = false := by
  rw [isEmpty_iff]
  refine forall_congr' fun k => ?_
  rw [← Bool.not_eq_true, contains_inter, not_and, Bool.not_eq_true]

/-! ## Adding -/

theorem contains_iff_getElem {s : RangeSet} {k : Key} :
    s.contains k = true ↔ ∃ i, ∃ hi : i < s.ranges.size, s.ranges[i].contains k = true := by
  simp only [contains_iff, Covers, List.mem_iff_getElem, Array.length_toList, Array.getElem_toList]
  exact ⟨fun ⟨_, ⟨i, hi, rfl⟩, hk⟩ => ⟨i, hi, hk⟩, fun ⟨i, hi, hk⟩ => ⟨_, ⟨i, hi, rfl⟩, hk⟩⟩

theorem covers_take {s : RangeSet} {n : Nat} {k : Key} :
    Covers (s.ranges.toList.take n) k ↔
      ∃ i, ∃ hi : i < s.ranges.size, i < n ∧ s.ranges[i].contains k = true := by
  refine ⟨?_, fun ⟨i, hi, hn, hk⟩ => ⟨_, ?_, hk⟩⟩
  · rintro ⟨_, hmem, hk⟩
    obtain ⟨i, hi, hn, rfl⟩ := mem_take_ranges hmem
    exact ⟨i, hi, hn, hk⟩
  · exact List.mem_take_iff_getElem.2 ⟨i, by simp; omega, by simp⟩

theorem covers_drop {s : RangeSet} {n : Nat} {k : Key} :
    Covers (s.ranges.toList.drop n) k ↔
      ∃ i, ∃ hi : i < s.ranges.size, n ≤ i ∧ s.ranges[i].contains k = true := by
  refine ⟨?_, fun ⟨i, hi, hn, hk⟩ => ⟨_, ?_, hk⟩⟩
  · rintro ⟨_, hmem, hk⟩
    obtain ⟨i, hi, hn, rfl⟩ := mem_drop_ranges hmem
    exact ⟨i, hi, hn, hk⟩
  · exact List.mem_drop_iff_getElem.2 ⟨i - n, by simp; omega, by simp [Nat.add_sub_cancel' hn]⟩

/-- Replacing a run of ranges by one range with their keys and those of `r` adds the keys of `r`. -/
theorem covers_splice {s : RangeSet} {r m : KeyRange} {l n : Nat} {k : Key}
    (hm : m.contains k = true ↔ r.contains k = true ∨
      ∃ i, ∃ hi : i < s.ranges.size, (l ≤ i ∧ i < n) ∧ s.ranges[i].contains k = true) :
    Covers (s.ranges.toList.take l ++ m :: s.ranges.toList.drop n) k ↔
      s.contains k = true ∨ r.contains k = true := by
  rw [Covers.append, Covers.cons, covers_take, covers_drop, hm, contains_iff_getElem]
  constructor
  · rintro (⟨i, hi, -, hk⟩ | (hk | ⟨i, hi, -, hk⟩) | ⟨i, hi, -, hk⟩)
    · exact .inl ⟨i, hi, hk⟩
    · exact .inr hk
    · exact .inl ⟨i, hi, hk⟩
    · exact .inl ⟨i, hi, hk⟩
  · rintro (⟨i, hi, hk⟩ | hk)
    · by_cases hl : i < l
      · exact .inl ⟨i, hi, hl, hk⟩
      · by_cases hin : i < n
        · exact .inr (.inl (.inr ⟨i, hi, ⟨Nat.le_of_not_lt hl, hin⟩, hk⟩))
        · exact .inr (.inr ⟨i, hi, Nat.le_of_not_lt hin, hk⟩)
    · exact .inr (.inl (.inl hk))

theorem low_le_low {s : RangeSet} {i j : Nat} (hi : i < s.ranges.size) (hj : j < s.ranges.size)
    (hij : i ≤ j) : Bound.key s.ranges[i].low ≤ .key s.ranges[j].low := by
  rcases Nat.lt_or_eq_of_le hij with hlt | rfl
  · have := low_le_low_of_lt hi hj hlt
    have := s.lt_high hi
    grind
  · exact Std.le_refl _

theorem high_le_high {s : RangeSet} {i j : Nat} (hi : i < s.ranges.size) (hj : j < s.ranges.size)
    (hij : i ≤ j) : s.ranges[i].high ≤ s.ranges[j].high := by
  rcases Nat.lt_or_eq_of_le hij with hlt | rfl
  · have := low_le_low_of_lt hi hj hlt
    have := s.lt_high hj
    grind
  · exact Std.le_refl _

theorem key_low_merged {s : RangeSet} {r : KeyRange} (hlt : s.leftOf r < s.upTo r)
    (hfirst : s.leftOf r < s.ranges.size) :
    Bound.key (s.merged r hlt).low = (Bound.key r.low).min (.key s.ranges[s.leftOf r].low) := by
  simp only [merged, Bound.min, Bound.key_lt_key]
  split <;> rfl

/-- A merged range holds the keys of the added range and of the ranges that it takes the place of. -/
theorem contains_merged {s : RangeSet} {r : KeyRange} {k : Key} (hlt : s.leftOf r < s.upTo r) :
    (s.merged r hlt).contains k = true ↔ r.contains k = true ∨
      ∃ i, ∃ hi : i < s.ranges.size,
        (s.leftOf r ≤ i ∧ i < s.upTo r) ∧ s.ranges[i].contains k = true := by
  have hstop : s.upTo r ≤ s.ranges.size := partitionPoint_le_size
  have hfirst : s.leftOf r < s.ranges.size := by omega
  have hlast : s.upTo r - 1 < s.ranges.size := by omega
  have hfirstEnd := le_high_of_leftOf_le hfirst (Nat.le_refl _)
  have hlastStart := low_le_of_lt_upTo hlast (r := r) (by omega)
  have hhigh : (s.merged r hlt).high = s.ranges[s.upTo r - 1].high.max r.high := rfl
  simp only [KeyRange.contains_iff, key_low_merged hlt hfirst, hhigh, Bound.min, Bound.max]
  constructor
  · rintro ⟨hlow, hhigh⟩
    by_cases hbefore : Bound.key k < .key r.low
    · refine .inr ⟨s.leftOf r, hfirst, ⟨Nat.le_refl _, hlt⟩, ?_⟩
      grind
    · by_cases hafter : r.high ≤ .key k
      · refine .inr ⟨s.upTo r - 1, hlast, by omega, ?_⟩
        grind
      · grind
  · rintro (hk | ⟨i, hi, ⟨hil, hiu⟩, hk⟩)
    · grind
    · have := low_le_low hfirst hi hil
      have := high_le_high hi hlast (by omega)
      grind

/-- A range that is added brings its keys and takes none away. -/
theorem contains_add {s : RangeSet} {r : KeyRange} {k : Key} :
    (s.add r).contains k = true ↔ s.contains k = true ∨ r.contains k = true := by
  unfold add
  split
  · next hempty =>
    have := KeyRange.isEmpty_iff.1 hempty k
    simp [this]
  · split
    · next hlt =>
      rw [contains_iff]
      exact covers_splice (contains_merged hlt)
    · rw [contains_iff]
      refine covers_splice (or_iff_left ?_).symm
      rintro ⟨i, hi, hin, -⟩
      omega

end RangeSet

end Keyspace
