import Keyspace.Proofs.RangeSet
import Mathlib.Data.List.Induction
import Mathlib.Order.BooleanAlgebra.Set

/-!
Range sets as an algebra of sets. The list of a range set is the only canonical one for its keys, so a range set
is as good as the set of its keys, and the laws of sets hold of union, intersection and complement as equations
between range sets. Adding a range in place and taking one away are such operations as well.
-/
namespace Keyspace

namespace Canonical

variable {r s : KeyRange} {rs ss : List KeyRange} {k : Key}

/-- The first range starts at the least key of the list. -/
theorem low_le_of_covers (h : Canonical (r :: rs)) (hk : Covers (r :: rs) k) : r.low ≤ k := by
  rcases Covers.cons.1 hk with hk | ⟨x, hx, hk⟩
  · exact (KeyRange.contains_iff.1 hk).1
  · have hstart : Bound.key r.low < .key x.low :=
      Std.lt_trans (h.nonempty r List.mem_cons_self) (h.head_high_lt_low hx)
    exact Std.le_trans (Std.le_of_lt hstart) (KeyRange.contains_iff.1 hk).1

/-- The end of the first range is a key that no range holds. -/
theorem not_covers_high (h : Canonical (r :: rs)) (hhigh : r.high = .key k) : ¬Covers (r :: rs) k := by
  intro hk
  rcases Covers.cons.1 hk with hk | ⟨x, hx, hk⟩
  · have hbelow := (KeyRange.contains_iff.1 hk).2
    rw [hhigh] at hbelow
    exact Std.lt_irrefl hbelow
  · have hgap := h.head_high_lt_low hx
    rw [hhigh] at hgap
    exact Std.not_le.2 hgap (KeyRange.contains_iff.1 hk).1

/-- The ranges after the first one hold the keys that the first one does not. -/
theorem covers_tail_iff (h : Canonical (r :: rs)) :
    Covers rs k ↔ Covers (r :: rs) k ∧ r.contains k = false := by
  constructor
  · intro hk
    refine ⟨Covers.cons.2 (.inr hk), KeyRange.contains_eq_false_iff.2 (.inr ?_)⟩
    exact Std.not_lt.1 fun hlt => h.not_covers_tail hlt hk
  · rintro ⟨hk, hr⟩
    exact (Covers.cons.1 hk).resolve_left (by simp [hr])

theorem low_eq (hr : Canonical (r :: rs)) (hs : Canonical (s :: ss))
    (h : ∀ k, Covers (r :: rs) k ↔ Covers (s :: ss) k) : r.low = s.low :=
  Std.le_antisymm
    (hr.low_le_of_covers ((h _).2 (Covers.cons.2 (.inl (hs.contains_low List.mem_cons_self)))))
    (hs.low_le_of_covers ((h _).1 (Covers.cons.2 (.inl (hr.contains_low List.mem_cons_self)))))

/-- Of two first ranges with one start, the one that ended first would leave out a key that the other holds. -/
theorem high_le (hr : Canonical (r :: rs)) (hlow : r.low = s.low)
    (h : ∀ k, Covers (s :: ss) k → Covers (r :: rs) k) : s.high ≤ r.high := by
  refine Std.not_lt.1 fun hlt => ?_
  cases hhigh : r.high with
  | top => simp [hhigh] at hlt
  | key k =>
    have hstart := hr.nonempty r List.mem_cons_self
    rw [hhigh] at hstart hlt
    have hk : s.contains k = true := KeyRange.contains_iff.2 ⟨hlow ▸ Std.le_of_lt hstart, hlt⟩
    exact hr.not_covers_high hhigh (h k (Covers.cons.2 (.inl hk)))

/-- Canonical lists with the same keys are the same list. -/
theorem eq_of_covers (hr : Canonical rs) (hs : Canonical ss) (h : ∀ k, Covers rs k ↔ Covers ss k) : rs = ss := by
  induction rs generalizing ss with
  | nil =>
    cases ss with
    | nil => rfl
    | cons s ss => exact absurd ((h _).2 (Covers.cons.2 (.inl (hs.contains_low List.mem_cons_self)))) Covers.nil
  | cons r rs ih =>
    cases ss with
    | nil => exact absurd ((h _).1 (Covers.cons.2 (.inl (hr.contains_low List.mem_cons_self)))) Covers.nil
    | cons s ss =>
      have hlow := hr.low_eq hs h
      have hhigh : r.high = s.high :=
        Std.le_antisymm (hs.high_le hlow.symm fun k => (h k).1) (hr.high_le hlow fun k => (h k).2)
      obtain rfl : r = s := KeyRange.ext hlow hhigh
      rw [ih hr.tail hs.tail fun k => by rw [hr.covers_tail_iff, hs.covers_tail_iff, h]]

end Canonical

namespace RangeSet

/-! ## The complement -/

theorem covers_gap? {a b k : Key} : Covers (gap? a b).toList k ↔ a ≤ k ∧ k < b := by
  unfold gap?
  split
  · simp [KeyRange.contains_iff]
  · next h =>
    simp only [Option.toList_none, Covers.nil, false_iff]
    grind

/-- The gaps hold the keys, from the start on, that the ranges leave out. -/
theorem covers_gapsFrom {start k : Key} {rs : List KeyRange} (hrs : Canonical rs)
    (hstart : ∀ r ∈ rs, start ≤ r.low) : Covers (gapsFrom start rs) k ↔ start ≤ k ∧ ¬Covers rs k := by
  induction rs generalizing start with
  | nil => simp [gapsFrom, KeyRange.contains_iff]
  | cons r rs ih =>
    have hlow := hstart r List.mem_cons_self
    have hne := hrs.nonempty r List.mem_cons_self
    have htail : Bound.key k < r.high → ¬Covers rs k := hrs.not_covers_tail
    rw [gapsFrom, Covers.append, covers_gap?, Covers.cons, KeyRange.contains_iff]
    cases hhigh : r.high with
    | top =>
      have hnone : ¬Covers rs k := htail (by simp [hhigh])
      simp only [Covers.nil, hnone, or_false, Bound.key_le_key, Bound.key_lt_top, and_true]
      grind
    | key h =>
      have hnext : ∀ s ∈ rs, h ≤ s.low := fun s hs => by
        have := hrs.head_high_lt_low hs
        grind
      rw [hhigh] at hne htail
      dsimp only
      rw [ih hrs.tail hnext]
      simp only [Bound.key_le_key, Bound.key_lt_key] at hne htail ⊢
      grind

/-! ## Range sets as sets of keys -/

def keys (s : RangeSet) : Set Key := {k | Covers s.ranges.toList k}

variable {s t : RangeSet}

theorem keys_injective : Function.Injective keys := fun s t h =>
  RangeSet.ext (Array.toList_inj.1 (s.canonical.eq_of_covers t.canonical fun k => Set.ext_iff.1 h k))

@[simp] theorem keys_ofList (rs : List KeyRange) : (ofList rs).keys = {k | Covers rs k} :=
  Set.ext fun _ => covers_normalize

@[simp] theorem keys_empty : empty.keys = ∅ := Set.ext fun _ => iff_of_false Covers.nil id

@[simp] theorem keys_full : full.keys = Set.univ := by
  refine Set.ext fun k => iff_of_true (Covers.cons.2 (.inl ?_)) trivial
  simp [KeyRange.contains_iff, KeyRange.full]

@[simp] theorem keys_union (s t : RangeSet) : (s.union t).keys = s.keys ∪ t.keys := by
  rw [union, keys_ofList]
  exact Set.ext fun _ => Covers.append

@[simp] theorem keys_inter (s t : RangeSet) : (s.inter t).keys = s.keys ∩ t.keys := by
  rw [inter, keys_ofList]
  exact Set.ext fun _ => covers_commonParts s.canonical t.canonical

@[simp] theorem keys_compl (s : RangeSet) : s.compl.keys = s.keysᶜ := by
  refine Set.ext fun k => ?_
  have hstart : ∀ r ∈ s.ranges.toList, ([] : Key) ≤ r.low := fun r _ => Key.nil_le _
  exact (covers_gapsFrom s.canonical hstart).trans (and_iff_right (Key.nil_le k))

/-- Range sets are a canonical algebra of key sets. Ranges in any order make up a list of ranges with keys, ascending
and with a gap between any two, that holds just their keys; union, intersection and complement give such lists for
the union, the intersection and the complement of the keys; and a range set is known by its keys, so that the laws of
sets are equations between range sets. -/
theorem canonical_boolean_algebra :
    (∀ rs : List KeyRange, Canonical (ofList rs).ranges.toList ∧
      ∀ k, (∃ r ∈ (ofList rs).ranges.toList, r.contains k = true) ↔ ∃ r ∈ rs, r.contains k = true) ∧
    (∀ s t : RangeSet,
      (Canonical (s.union t).ranges.toList ∧ (s.union t).keys = s.keys ∪ t.keys) ∧
      (Canonical (s.inter t).ranges.toList ∧ (s.inter t).keys = s.keys ∩ t.keys) ∧
      (Canonical s.compl.ranges.toList ∧ s.compl.keys = s.keysᶜ) ∧
      (∀ k, s.contains k = true ↔ k ∈ s.keys) ∧ (s = t ↔ s.keys = t.keys)) ∧
    ∀ s t : RangeSet,
      s.compl.compl = s ∧
      (s.union t).compl = s.compl.inter t.compl ∧ (s.inter t).compl = s.compl.union t.compl ∧
      s.union s.compl = full ∧ s.inter s.compl = empty := by
  refine ⟨fun rs => ⟨canonical_normalize rs, fun k => covers_normalize⟩, fun s t => ?_, fun s t => ?_⟩
  · exact ⟨⟨canonical_normalize _, keys_union s t⟩, ⟨canonical_normalize _, keys_inter s t⟩,
      ⟨s.compl.canonical, keys_compl s⟩, fun k => contains_iff, keys_injective.eq_iff.symm⟩
  · refine ⟨?_, ?_, ?_, ?_, ?_⟩ <;> apply keys_injective
    · simp
    · simp [Set.compl_union]
    · simp [Set.compl_inter]
    · simp
    · simp

/-! ## Changes in place -/

@[simp] theorem keys_single (r : KeyRange) : (single r).keys = {k | r.contains k = true} := by
  rw [single, keys_ofList]
  exact Set.ext fun k => Covers.cons.trans (or_iff_left Covers.nil)

theorem mem_keys_iff {s : RangeSet} {k : Key} : k ∈ s.keys ↔ s.contains k = true := contains_iff.symm

@[simp] theorem keys_add (s : RangeSet) (r : KeyRange) : (s.add r).keys = s.keys ∪ {k | r.contains k = true} := by
  refine Set.ext fun k => ?_
  rw [mem_keys_iff, contains_add, Set.mem_union, mem_keys_iff, Set.mem_ofPred_eq]

@[simp] theorem keys_remove (s : RangeSet) (r : KeyRange) : (s.remove r).keys = s.keys \ {k | r.contains k = true} := by
  rw [remove, keys_inter, keys_compl, keys_single, Set.sdiff_eq]

inductive Edit where
  | add (r : KeyRange)
  | remove (r : KeyRange)
  deriving DecidableEq

namespace Edit

def range : Edit → KeyRange
  | add r => r
  | remove r => r

/-- Whether the set holds the keys of the range afterwards. -/
def adds : Edit → Bool
  | add _ => true
  | remove _ => false

def perform (s : RangeSet) : Edit → RangeSet
  | add r => s.add r
  | remove r => s.remove r

/-- The last of some changes that is about a key. -/
def last? (es : List Edit) (k : Key) : Option Edit := es.reverse.find? fun e => e.range.contains k

theorem last?_append (es : List Edit) (e : Edit) (k : Key) :
    last? (es ++ [e]) k = if e.range.contains k then some e else last? es k := by
  rw [last?, List.reverse_append, List.reverse_singleton, List.singleton_append, List.find?_cons, last?]
  cases e.range.contains k <;> rfl

/-- A change decides on the keys of its range and on no others. -/
theorem mem_keys_perform (s : RangeSet) (e : Edit) (k : Key) :
    k ∈ (perform s e).keys ↔ if e.range.contains k = true then e.adds = true else k ∈ s.keys := by
  cases e with
  | add r =>
    rw [perform, keys_add, Set.mem_union, Set.mem_ofPred_eq]
    by_cases hk : r.contains k = true <;> simp [range, adds, hk]
  | remove r =>
    rw [perform, keys_remove, Set.mem_sdiff, Set.mem_ofPred_eq]
    by_cases hk : r.contains k = true <;> simp [range, adds, hk]

/-- After any changes the last one about a key decides on it. -/
theorem mem_keys_foldl (es : List Edit) (s : RangeSet) (k : Key) : k ∈ (es.foldl perform s).keys ↔
    match last? es k with
    | some e => e.adds = true
    | none => k ∈ s.keys := by
  induction es using List.reverseRecOn with
  | nil => rfl
  | append_singleton es e ih =>
    rw [List.foldl_append, List.foldl_cons, List.foldl_nil, mem_keys_perform, last?_append, ih]
    by_cases hk : e.range.contains k = true
    · rw [if_pos hk, if_pos hk]
    · rw [if_neg hk, if_neg hk]

/-- Changes in place are operations on sets. Adding a range gives the very list of the union with it, and taking one
away the list of the keys that are not in it. After any changes, the list is canonical, the last change about a key
has decided on it, and any ranges that hold the keys then in the set come to this list when they are sorted and
merged. -/
theorem perform_eq_set_operations :
    (∀ (s : RangeSet) (r : KeyRange), s.add r = s.union (single r) ∧
      ∀ t : RangeSet, s.remove r = t ↔ ∀ k, t.contains k = true ↔ s.contains k = true ∧ ¬r.contains k = true) ∧
    ∀ (s : RangeSet) (es : List Edit),
      Canonical (es.foldl perform s).ranges.toList ∧
      (∀ k, (es.foldl perform s).contains k =
        match last? es k with
        | some e => e.adds
        | none => s.contains k) ∧
      ∀ rs : List KeyRange, (∀ k, Covers rs k ↔ (es.foldl perform s).contains k = true) →
        normalize rs = (es.foldl perform s).ranges.toList := by
  refine ⟨fun s r => ⟨?_, fun t => ?_⟩, fun s es => ⟨RangeSet.canonical _, fun k => ?_, fun rs hrs => ?_⟩⟩
  · apply keys_injective
    rw [keys_add, keys_union, keys_single]
  · rw [← keys_injective.eq_iff, keys_remove, Set.ext_iff]
    simp only [Set.mem_sdiff, mem_keys_iff, Set.mem_ofPred_eq]
    exact forall_congr' fun k => iff_comm
  · have hk := mem_keys_foldl es s k
    rw [mem_keys_iff] at hk
    rw [Bool.eq_iff_iff, hk]
    split
    · rfl
    · exact mem_keys_iff
  · exact (canonical_normalize rs).eq_of_covers (RangeSet.canonical _) fun k =>
      covers_normalize.trans ((hrs k).trans contains_iff)

end Edit

end RangeSet

end Keyspace
