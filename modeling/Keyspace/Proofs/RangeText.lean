import Keyspace.Json.Ranges
import Keyspace.Proofs.Format
import Keyspace.Proofs.RangeAlgebra
import Mathlib.Data.List.Forall2

/-!
Range sets as texts. What is written is read back, and every list of ranges is read as the canonical list of their
keys, in whatever order the ranges stand and however they overlap, unless one of them ends before it starts.
-/
namespace Keyspace

namespace Json

theorem byte?_integer (b : UInt8) : byte? (integer b.toNat) = some b := by
  have hb := b.toNat_lt
  rw [byte?, nat?, if_pos (by omega)]
  simp

theorem key?_ofKey (k : Key) : key? (ofKey k) = some k := list?_map fun b _ => byte?_integer b

theorem bound?_ofBound (b : Bound) : bound? (ofBound b) = some b := by
  cases b with
  | key k =>
    have hk := key?_ofKey k
    rw [ofKey] at hk
    simp [ofBound, ofKey, bound?, hk]
  | top => rfl

end Json

namespace KeyRange

open Json (ofKey ofBound)

/-- An object that stands for two bounds, whether they are in order or not. Its members may come in either order,
and the end of the keyspace may be null or left out. -/
inductive Tells : Json → Key → Bound → Prop where
  | minMax (low : Key) (high : Bound) : Tells (.object [("min", ofKey low), ("max", ofBound high)]) low high
  | maxMin (low : Key) (high : Bound) : Tells (.object [("max", ofBound high), ("min", ofKey low)]) low high
  | minOnly (low : Key) : Tells (.object [("min", ofKey low)]) low .top

variable {v : Json} {low : Key} {high : Bound} {r : KeyRange}

theorem ofBounds?_written (low : Key) (high : Bound) : ofBounds? (ofKey low) (ofBound high) = between? low high := by
  rw [ofBounds?, Json.key?_ofKey, Json.bound?_ofBound]
  rfl

/-- An object is read as the range between its bounds, if they are in order. -/
theorem Tells.ofJson?_eq (h : Tells v low high) : ofJson? v = between? low high := by
  cases h with
  | minMax => exact ofBounds?_written low high
  | maxMin => exact ofBounds?_written low high
  | minOnly => exact ofBounds?_written low .top

theorem between?_eq_some_iff : between? low high = some r ↔ (r.low, r.high) = (low, high) := by
  unfold between?
  split
  · next h =>
    rw [Option.some_inj, eq_comm, KeyRange.ext_iff, Prod.mk.injEq]
  · next h =>
    refine iff_of_false nofun fun heq => h ?_
    obtain ⟨rfl, rfl⟩ := Prod.mk.inj heq
    exact r.low_le_high

theorem ofJson?_toJson (r : KeyRange) : ofJson? r.toJson = some r :=
  (Tells.minMax r.low r.high).ofJson?_eq.trans (between?_eq_some_iff.2 rfl)

/-- A list of bounds gives a list of ranges with just these bounds, or none. -/
theorem mapM_between?_eq_some_iff {bs : List (Key × Bound)} {rs : List KeyRange} :
    bs.mapM (fun b => between? b.1 b.2) = some rs ↔ rs.map (fun r => (r.low, r.high)) = bs := by
  induction bs generalizing rs with
  | nil => cases rs <;> simp
  | cons b bs ih =>
    rw [List.mapM_cons]
    constructor
    · intro h
      obtain ⟨r, hr, h⟩ := Option.bind_eq_some_iff.1 h
      obtain ⟨ss, hss, h⟩ := Option.bind_eq_some_iff.1 h
      cases h
      rw [List.map_cons, ih.1 hss, between?_eq_some_iff.1 hr]
    · intro h
      obtain ⟨r, ss, rfl, hr, hss⟩ := List.map_eq_cons_iff.1 h
      rw [between?_eq_some_iff.2 hr, ih.2 hss]
      rfl

end KeyRange

namespace RangeSet

open KeyRange (Tells between? mapM_between?_eq_some_iff)

theorem ofJson?_toJson (s : RangeSet) : ofJson? s.toJson = some s := by
  rw [ofJson?, toJson, Json.list?_map fun r _ => KeyRange.ofJson?_toJson r, Option.map_some]
  exact congrArg some (keys_injective (keys_ofList _))

variable {vs : List Json} {bs : List (Key × Bound)}

theorem ofJson?_array (h : List.Forall₂ (fun v b => Tells v b.1 b.2) vs bs) :
    ofJson? (.array vs) = (bs.mapM fun b => between? b.1 b.2).map ofList := by
  have hlist : vs.mapM KeyRange.ofJson? = bs.mapM fun b => between? b.1 b.2 := by
    induction h with
    | nil => rfl
    | cons hv _ ih => rw [List.mapM_cons, List.mapM_cons, hv.ofJson?_eq, ih]
  rw [ofJson?, Json.list?, hlist]

/-- Bounds in order are read as the canonical list of the keys between them. -/
theorem ofJson?_of_ordered (h : List.Forall₂ (fun v b => Tells v b.1 b.2) vs bs)
    (hordered : ∀ b ∈ bs, Bound.key b.1 ≤ b.2) : ∃ s, ofJson? (.array vs) = some s ∧ Canonical s.ranges.toList ∧
      ∀ k, s.contains k = true ↔ ∃ b ∈ bs, b.1 ≤ k ∧ Bound.key k < b.2 := by
  let rs : List KeyRange := bs.pmap (fun b hb => ⟨b.1, b.2, hb⟩) hordered
  have hrs : rs.map (fun r => (r.low, r.high)) = bs := by simp [rs, List.map_pmap]
  refine ⟨ofList rs, ?_, (ofList rs).canonical, fun k => ?_⟩
  · rw [ofJson?_array h, mapM_between?_eq_some_iff.2 hrs, Option.map_some]
  · rw [← mem_keys_iff, keys_ofList, ← hrs]
    simp [Covers, KeyRange.contains_iff]

/-- A range that ends before it starts is refused, wherever it stands. -/
theorem ofJson?_of_inverted (h : List.Forall₂ (fun v b => Tells v b.1 b.2) vs bs)
    (hinverted : ∃ b ∈ bs, b.2 < .key b.1) : ofJson? (.array vs) = none := by
  rw [ofJson?_array h, Option.map_eq_none_iff, Option.eq_none_iff_forall_ne_some]
  intro rs hrs
  obtain ⟨b, hb, hlt⟩ := hinverted
  rw [← mapM_between?_eq_some_iff.1 hrs] at hb
  obtain ⟨r, -, rfl⟩ := List.mem_map.1 hb
  exact Std.not_le.2 hlt r.low_le_high

/-- The text form of range sets is faithful and always normalised. Every range set is read back from its text. Every
list of bounds has texts of it; each of them is read, if no range ends before it starts, as a set with a canonical
list and just the keys of the ranges, and is refused otherwise. -/
theorem text_faithful_normalised :
    (∀ s : RangeSet, (Json.parse s.toJson.compact).bind ofJson? = some s) ∧
    (∀ bs : List (Key × Bound), ∃ text vs,
      Json.parse text = some (.array vs) ∧ List.Forall₂ (fun v b => Tells v b.1 b.2) vs bs) ∧
    ∀ (text : String) (vs : List Json) (bs : List (Key × Bound)), Json.parse text = some (.array vs) →
      List.Forall₂ (fun v b => Tells v b.1 b.2) vs bs →
      ((∀ b ∈ bs, Bound.key b.1 ≤ b.2) → ∃ s, (Json.parse text).bind ofJson? = some s ∧
        Canonical s.ranges.toList ∧ ∀ k, s.contains k = true ↔ ∃ b ∈ bs, b.1 ≤ k ∧ Bound.key k < b.2) ∧
      ((∃ b ∈ bs, b.2 < .key b.1) → (Json.parse text).bind ofJson? = none) := by
  refine ⟨fun s => ?_, fun bs => ?_, fun text vs bs htext h => ?_⟩
  · rw [Json.parse_compact, Option.bind_some, ofJson?_toJson]
  · refine ⟨_, _, Json.parse_compact (.array (bs.map fun b => .object [("min", .ofKey b.1), ("max", .ofBound b.2)])), ?_⟩
    rw [List.forall₂_map_left_iff, List.forall₂_same]
    exact fun b _ => .minMax b.1 b.2
  · rw [htext, Option.bind_some]
    exact ⟨ofJson?_of_ordered h, ofJson?_of_inverted h⟩

end RangeSet

end Keyspace
