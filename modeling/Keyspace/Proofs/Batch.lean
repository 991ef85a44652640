import Keyspace.Batch
import Keyspace.Proofs.BigEndian
import Keyspace.Proofs.Nearest
import Keyspace.Proofs.RangeSet

/-!
What a batch does to a store. It works key by key: the value under a key after the batch depends on the
value before and on nothing else, a key that the batch does not declare as written keeps its value, and one
more write in the batch is that write performed after it.
-/
namespace Keyspace

namespace Store

theorem get?_foldl_removeRange (rs : List KeyRange) (m : Store) (k : Key) :
    (rs.foldl removeRange m).get? k = bif rs.any (·.contains k) then none else m.get? k := by
  induction rs generalizing m with
  | nil => simp
  | cons r rs ih =>
    rw [List.foldl_cons, ih, get?_removeRange, List.any_cons]
    cases r.contains k <;> simp

/-- Adjustments of different keys each move their own counter. -/
theorem get?_foldl_adjust {es : List (Key × Int64)} (h : es.Pairwise fun a b => a.1 < b.1) (m : Store)
    (k : Key) :
    (es.foldl (fun m e => m.adjust e.1 e.2) m).get? k =
      match es.find? (·.1 = k) with
      | some e => adjusted e.2 (m.get? k)
      | none => m.get? k := by
  induction es generalizing m with
  | nil => simp
  | cons e es ih =>
    obtain ⟨hlt, hes⟩ := List.pairwise_cons.1 h
    rw [List.foldl_cons, ih hes, get?_adjust, List.find?_cons]
    by_cases hk : e.1 = k
    · have hnone : es.find? (·.1 = k) = none := List.find?_eq_none.2 fun x hx => by
        have := hlt x hx
        simp
        grind
      simp [hk, hnone]
    · have hk' : ¬k = e.1 := fun h => hk h.symm
      simp [hk, hk']

/-- Two adjustments of a value are one by the sum of the amounts. -/
theorem adjusted_adjusted (a b : Int64) (v : Option Value) :
    adjusted b (adjusted a v) = adjusted (a + b) v := by
  unfold adjusted
  cases hv : v.bind Counter.decode? with
  | none => simp [hv]
  | some n => simp [Int64.add_assoc]

end Store

namespace Batch

/-- What a batch makes of the value under a key. -/
def outcome (b : Batch) (k : Key) (v : Option Value) : Option Value :=
  let put := (b.puts.get? k).or (bif b.removes.contains k then none else v)
  match b.adjusts.get? k with
  | some amount => Store.adjusted amount put
  | none => put

/-- A batch works key by key. -/
theorem get?_apply (b : Batch) (m : Store) (k : Key) : (b.apply m).get? k = b.outcome k (m.get? k) := by
  have hremoves : b.removes.ranges.toList.any (·.contains k) = b.removes.contains k := by
    rw [Bool.eq_iff_iff, List.any_eq_true, RangeSet.contains_iff]
    rfl
  rw [apply, Store.get?_foldl_adjust b.adjusts.ascending, SortedMap.get?_foldl_insert b.puts.distinct,
    Store.get?_foldl_removeRange, hremoves, outcome, SortedMap.get?, SortedMap.get?]
  cases b.adjusts.toList.find? (·.1 = k) <;> rfl

@[simp] theorem apply_empty (m : Store) : empty.apply m = m := rfl

theorem contains_written {b : Batch} {k : Key} :
    b.written.contains k = true ↔
      b.removes.contains k = true ∨ (∃ v, b.puts.get? k = some v) ∨ ∃ a, b.adjusts.get? k = some a := by
  rw [written, RangeSet.contains_union, RangeSet.contains_ofList]
  simp only [Covers, List.mem_map, List.mem_append, SortedMap.mem_keys_iff]
  refine or_congr_right ⟨?_, ?_⟩
  · rintro ⟨-, ⟨x, hx, rfl⟩, hk⟩
    rwa [KeyRange.contains_single.1 hk]
  · exact fun h => ⟨_, ⟨k, h, rfl⟩, KeyRange.contains_single.2 rfl⟩

/-- A key that a batch does not declare as written keeps its value. -/
theorem get?_apply_of_not_written {b : Batch} {k : Key} (h : b.written.contains k = false) (m : Store) :
    (b.apply m).get? k = m.get? k := by
  rw [← Bool.not_eq_true, contains_written, not_or, not_or] at h
  obtain ⟨hremoves, hputs, hadjusts⟩ := h
  have hput : b.puts.get? k = none := by
    cases hp : b.puts.get? k with
    | none => rfl
    | some v => exact absurd ⟨v, hp⟩ hputs
  have hadjust : b.adjusts.get? k = none := by
    cases ha : b.adjusts.get? k with
    | none => rfl
    | some a => exact absurd ⟨a, ha⟩ hadjusts
  simp [get?_apply, outcome, hput, hadjust, hremoves]

/-- A batch without writes declares no key as written. -/
theorem contains_written_of_isEmpty {b : Batch} (h : b.isEmpty = true) (k : Key) : b.written.contains k = false := by
  simp only [isEmpty, Bool.and_eq_true, SortedMap.isEmpty, List.isEmpty_iff] at h
  obtain ⟨⟨hremoves, hputs⟩, hadjusts⟩ := h
  rw [← Bool.not_eq_true, contains_written]
  simp [RangeSet.isEmpty_iff.1 hremoves k, SortedMap.get?, hputs, hadjusts]

/-- A batch without writes changes nothing. -/
theorem apply_of_isEmpty {b : Batch} (h : b.isEmpty = true) (m : Store) : b.apply m = m :=
  SortedMap.ext_get? fun k => get?_apply_of_not_written (contains_written_of_isEmpty h k) m

/-! ## One more write -/

theorem apply_put (b : Batch) (m : Store) (k : Key) (v : Value) :
    (b.put k v).apply m = (b.apply m).insert k v := by
  refine SortedMap.ext_get? fun x => ?_
  rw [get?_apply, SortedMap.get?_insert, get?_apply]
  simp only [outcome, put, SortedMap.get?_insert, SortedMap.get?_erase]
  by_cases hx : x = k <;> simp [hx]

/-- A removal that is recorded is carried out last, as if it had been made on the outcome. -/
theorem apply_removeRange (b : Batch) (m : Store) (r : KeyRange) :
    (b.removeRange r).apply m = (b.apply m).removeRange r := by
  refine SortedMap.ext_get? fun k => ?_
  rw [get?_apply, Store.get?_removeRange, get?_apply, removeRange]
  split
  · next hempty => simp [KeyRange.isEmpty_iff.1 hempty k]
  · have hclear : (b.removes.add r).contains k = (b.removes.contains k || r.contains k) := by
      rw [Bool.eq_iff_iff, RangeSet.contains_add, Bool.or_eq_true]
    simp only [outcome, hclear, SortedMap.get?_filter_key fun x => !r.contains x]
    cases r.contains k <;> simp

theorem apply_remove (b : Batch) (m : Store) (k : Key) :
    (b.remove k).apply m = (b.apply m).erase k := by
  refine SortedMap.ext_get? fun x => ?_
  rw [remove, apply_removeRange, Store.get?_removeRange, SortedMap.get?_erase]
  simp only [KeyRange.contains_single]

/-- An adjustment that is recorded comes to one made on the outcome, whatever the batch has done about its key before. -/
theorem apply_adjust (b : Batch) (m : Store) (k : Key) (amount : Int64) :
    (b.adjust k amount).apply m = (b.apply m).adjust k amount := by
  refine SortedMap.ext_get? fun x => ?_
  rw [get?_apply, Store.get?_adjust, get?_apply, get?_apply]
  simp only [outcome, adjust, SortedMap.get?_insert]
  by_cases hx : x = k
  · subst hx
    cases ha : b.adjusts.get? x with
    | none => simp
    | some a => simp [Store.adjusted_adjusted]
  · simp [hx]

end Batch

end Keyspace
