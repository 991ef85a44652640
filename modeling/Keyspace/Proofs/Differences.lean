import Keyspace.Proofs.WellFormed
import Keyspace.Schema.Diff
import Mathlib.Data.List.Forall2

/-!
Differences leave nothing out and add nothing. Each property of an item is either compared or part of where the item is
kept; so two well-formed schemas without differences are one schema, and their differences stand one by one for the
IDs under which they do not keep the same.
-/
namespace Keyspace.Schema

namespace Diff

theorem ofProperty_eq_nil_iff {α : Type} [DecidableEq α] {property : String} {written : α → String} {new old : α} :
    ofProperty property written new old = [] ↔ new = old := by
  by_cases h : new = old <;> simp [ofProperty, h]

theorem explained_eq_nil_iff {text : String} {details : List Diff} : explained text details = [] ↔ details = [] := by
  cases details <;> simp [explained]

end Diff

open Diff (ofProperty_eq_nil_iff explained_eq_nil_iff)

/-! ## Items one by one -/

theorem kindChange_ne_nil (new old : FieldKind) : kindChange new old ≠ [] := List.cons_ne_nil _ _

/-- A simple field is what it is compared by and its ID. -/
theorem SimpleField.diff_eq_nil_iff {f g : SimpleField} (hid : f.id = g.id) : f.diff g = [] ↔ f = g := by
  obtain ⟨name, id, indexed, kind⟩ := f
  obtain ⟨name', id', indexed', kind'⟩ := g
  obtain rfl : id = id' := hid
  rw [diff, List.append_eq_nil_iff, List.append_eq_nil_iff, ofProperty_eq_nil_iff, ofProperty_eq_nil_iff]
  cases kind <;> cases kind' <;> simp [ofProperty_eq_nil_iff, kindChange_ne_nil, and_assoc]

theorem SimpleField.subFieldDiff_eq_nil_iff {f g : SimpleField} : f.subFieldDiff g = [] ↔ f = g := by
  rw [subFieldDiff]
  by_cases hid : f.id = g.id
  · rw [if_neg (not_not_intro hid), explained_eq_nil_iff, diff_eq_nil_iff hid]
  · rw [if_pos hid]
    exact iff_of_false (List.cons_ne_nil _ _) fun h => hid (congrArg SimpleField.id h)

/-- Sub-fields are compared place by place; a collection has no more of them than the other one of its sort. -/
theorem flatMap_zip_eq_nil_iff {as bs : List SimpleField} (hlength : as.length = bs.length) :
    ((as.zip bs).flatMap fun (s, s') => s.subFieldDiff s') = [] ↔ as = bs := by
  induction as generalizing bs with
  | nil =>
    obtain rfl := List.eq_nil_of_length_eq_zero hlength.symm
    exact iff_of_true rfl rfl
  | cons a as ih =>
    obtain ⟨b, bs, rfl⟩ := List.exists_cons_of_length_eq_add_one hlength.symm
    rw [List.zip_cons_cons, List.flatMap_cons, List.append_eq_nil_iff, SimpleField.subFieldDiff_eq_nil_iff,
      ih (Nat.succ.inj hlength), List.cons.injEq]

/-- Fields with one ID show no difference just if they are the same. -/
theorem Field.diff_eq_nil_iff {f g : Field} (hf : f.WellFormed) (hg : g.WellFormed) (hid : f.id = g.id) :
    f.diff g = [] ↔ f = g := by
  cases f <;> cases g
  case simple.simple f g => rw [diff, SimpleField.diff_eq_nil_iff hid, simple.injEq]
  case counter.counter f g =>
    obtain ⟨name, id⟩ := f
    obtain ⟨name', id'⟩ := g
    obtain rfl : id = id' := hid
    simp [diff, ofProperty_eq_nil_iff]
  case complex.complex f g =>
    rw [diff]
    by_cases hcollection : f.collection = g.collection
    · have hlength : f.subFields.length = g.subFields.length := by
        rw [ComplexField.WellFormed.length_subFields hf, ComplexField.WellFormed.length_subFields hg, hcollection]
      rw [if_pos hcollection, List.append_eq_nil_iff, ofProperty_eq_nil_iff, flatMap_zip_eq_nil_iff hlength]
      obtain ⟨name, id, collection, subFields⟩ := f
      obtain ⟨name', id', collection', subFields'⟩ := g
      obtain rfl : id = id' := hid
      obtain rfl : collection = collection' := hcollection
      simp
    · rw [if_neg hcollection, complex.injEq]
      exact iff_of_false (kindChange_ne_nil _ _) fun h => hcollection (congrArg ComplexField.collection h)
  all_goals exact iff_of_false (kindChange_ne_nil _ _) nofun

theorem CompositeIndex.diff_eq_nil_iff {i j : CompositeIndex} (hid : i.id = j.id) : i.diff j = [] ↔ i = j := by
  obtain ⟨name, id, fields⟩ := i
  obtain ⟨name', id', fields'⟩ := j
  obtain rfl : id = id' := hid
  simp [diff, ofProperty_eq_nil_iff]

/-! ## Maps of items -/

/-- What a difference tells of the items that two maps keep under one ID, the one with the new items first. -/
inductive Diff.Tells {α : Type} (describe : α → String) (diff : α → α → List Diff) :
    Option α → Option α → Diff → Prop where
  | added (a : α) : Tells describe diff (some a) none (.leaf ("added " ++ describe a))
  | removed (b : α) : Tells describe diff none (some b) (.leaf ("removed " ++ describe b))
  | changed {a b : α} (hne : a ≠ b) (hdetails : diff a b ≠ []) :
    Tells describe diff (some a) (some b) (.node ("changed " ++ describe b) (diff a b))

/-- The differences of the items that two maps keep under one ID. -/
def diffEntry {α : Type} (describe : α → String) (diff : α → α → List Diff) : Option α → Option α → List Diff
  | none, some b => [.leaf ("removed " ++ describe b)]
  | some a, none => [.leaf ("added " ++ describe a)]
  | some a, some b => Diff.explained ("changed " ++ describe b) (diff a b)
  | none, none => []

section

variable {α : Type} {describe : α → String} {diff : α → α → List Diff} {new old : SortedMap StorageId α}

theorem diffMaps_eq : diffMaps describe diff new old =
    (SortedSet.ofKeys (new.keys ++ old.keys)).keys.flatMap fun id =>
      diffEntry describe diff (new.get? id) (old.get? id) := rfl

/-- The entry for an ID tells a difference just if there is one. -/
theorem diffEntry_cases {a b : Option α} (hdiff : ∀ {x y}, a = some x → b = some y → (diff x y = [] ↔ x = y)) :
    (a ≠ b ∧ ∃ d, diffEntry describe diff a b = [d] ∧ Diff.Tells describe diff a b d) ∨
      (a = b ∧ diffEntry describe diff a b = []) := by
  cases a with
  | none =>
    cases b with
    | none => exact .inr ⟨rfl, rfl⟩
    | some y => exact .inl ⟨nofun, _, rfl, .removed y⟩
  | some x =>
    cases b with
    | none => exact .inl ⟨nofun, _, rfl, .added x⟩
    | some y =>
      by_cases hxy : x = y
      · have hnil : diff x y = [] := (hdiff rfl rfl).2 hxy
        exact .inr ⟨congrArg some hxy, by rw [diffEntry, hnil]; rfl⟩
      · have hdetails : diff x y ≠ [] := fun h => hxy ((hdiff rfl rfl).1 h)
        have hentry : diffEntry describe diff (some x) (some y) = [.node ("changed " ++ describe y) (diff x y)] := by
          obtain ⟨d, ds, hds⟩ := List.exists_cons_of_ne_nil hdetails
          rw [diffEntry, hds]
          rfl
        exact .inl ⟨fun h => hxy (Option.some.inj h), _, hentry, .changed hxy hdetails⟩

/-- Where each key has one image or none, the images stand for the keys that have one, in their order. -/
theorem exists_sublist_forall₂_flatMap {κ β : Type} {p : κ → Prop} {r : κ → β → Prop} {f : κ → List β} {ks : List κ}
    (h : ∀ k ∈ ks, (p k ∧ ∃ b, f k = [b] ∧ r k b) ∨ (¬p k ∧ f k = [])) :
    ∃ js, js.Sublist ks ∧ (∀ k, k ∈ js ↔ k ∈ ks ∧ p k) ∧ List.Forall₂ r js (ks.flatMap f) := by
  induction ks with
  | nil => exact ⟨[], .slnil, fun k => by simp, .nil⟩
  | cons k ks ih =>
    obtain ⟨hk, hks⟩ := List.forall_mem_cons.1 h
    obtain ⟨js, hsub, hmem, hall⟩ := ih hks
    rw [List.flatMap_cons]
    rcases hk with ⟨hp, b, hb, hr⟩ | ⟨hp, hnil⟩
    · refine ⟨k :: js, hsub.cons_cons k, fun x => ?_, hb ▸ .cons hr hall⟩
      rw [List.mem_cons, List.mem_cons, hmem, or_and_right]
      exact or_congr_left (and_iff_left_of_imp fun hx => hx ▸ hp).symm
    · refine ⟨js, hsub.cons k, fun x => ?_, hnil ▸ hall⟩
      have hother : ¬(x = k ∧ p x) := fun ⟨hx, hpx⟩ => hp (hx ▸ hpx)
      rw [List.mem_cons, hmem, or_and_right, or_iff_right hother]

section

variable (hdiff : ∀ {id a b}, new.get? id = some a → old.get? id = some b → (diff a b = [] ↔ a = b))

include hdiff

variable (describe) in
/-- The differences of two maps stand, in order, for just the IDs under which the maps do not keep the same. -/
theorem diffMaps_tells : ∃ ids : List StorageId, ids.Pairwise (· < ·) ∧ (∀ id, id ∈ ids ↔ new.get? id ≠ old.get? id) ∧
    List.Forall₂ (fun id => Diff.Tells describe diff (new.get? id) (old.get? id)) ids
      (diffMaps describe diff new old) := by
  obtain ⟨keys, hkeys⟩ : ∃ keys, keys = SortedSet.ofKeys (new.keys ++ old.keys) := ⟨_, rfl⟩
  have hcases : ∀ id ∈ keys.keys, (new.get? id ≠ old.get? id ∧ ∃ d,
      diffEntry describe diff (new.get? id) (old.get? id) = [d] ∧
        Diff.Tells describe diff (new.get? id) (old.get? id) d) ∨
      (¬new.get? id ≠ old.get? id ∧ diffEntry describe diff (new.get? id) (old.get? id) = []) := fun id _ =>
    (diffEntry_cases hdiff).imp_right fun ⟨heq, hnil⟩ => ⟨not_not_intro heq, hnil⟩
  obtain ⟨ids, hsub, hmem, hall⟩ := exists_sublist_forall₂_flatMap hcases
  refine ⟨ids, (List.pairwise_map.2 keys.ascending).sublist hsub, fun id => ?_, ?_⟩
  · rw [hmem, and_iff_right_iff_imp, hkeys, SortedSet.mem_keys_ofKeys, List.mem_append, SortedMap.mem_keys_iff,
      SortedMap.mem_keys_iff]
    intro hne
    cases ha : new.get? id with
    | some a => exact .inl ⟨a, rfl⟩
    | none => exact .inr (Option.ne_none_iff_exists'.1 fun hb => hne (ha.trans hb.symm))
  · rw [diffMaps_eq, ← hkeys]
    exact hall

/-- Maps without differences keep the same. -/
theorem diffMaps_eq_nil_iff : diffMaps describe diff new old = [] ↔ new = old := by
  obtain ⟨ids, -, hmem, hall⟩ := diffMaps_tells describe hdiff
  constructor
  · intro hnil
    obtain rfl : ids = [] := List.forall₂_nil_right_iff.1 (hnil ▸ hall)
    refine SortedMap.ext_get? fun k => ?_
    by_contra hne
    exact List.not_mem_nil ((hmem k).2 hne)
  · rintro rfl
    obtain rfl : ids = [] := List.eq_nil_iff_forall_not_mem.2 fun k hk => (hmem k).1 hk rfl
    exact List.forall₂_nil_left_iff.1 hall

end

/-- Items that are kept under their own IDs are compared as items with one ID. -/
theorem diff_eq_nil_iff_of_get? {id : α → StorageId} (hnew : ∀ e ∈ new.toList, e.1 = id e.2)
    (hold : ∀ e ∈ old.toList, e.1 = id e.2)
    (hdiff : ∀ a ∈ new.values, ∀ b ∈ old.values, id a = id b → (diff a b = [] ↔ a = b)) {k : StorageId} {a b : α}
    (ha : new.get? k = some a) (hb : old.get? k = some b) : diff a b = [] ↔ a = b := by
  have ha := SortedMap.mem_toList_iff.2 ha
  have hb := SortedMap.mem_toList_iff.2 hb
  exact hdiff a (List.mem_map_of_mem ha) b (List.mem_map_of_mem hb) ((hnew _ ha).symm.trans (hold _ hb))

end

/-- Object types with one ID show no difference just if they are the same. -/
theorem ObjectType.diff_eq_nil_iff {t u : ObjectType} (ht : t.WellFormed) (hu : u.WellFormed) (hid : t.id = u.id) :
    t.diff u = [] ↔ t = u := by
  have hfields : diffMaps Field.describe Field.diff t.fields u.fields = [] ↔ t.fields = u.fields :=
    diffMaps_eq_nil_iff <| diff_eq_nil_iff_of_get? ht.fieldKeys hu.fieldKeys fun f hf g hg =>
      Field.diff_eq_nil_iff (ht.fields f hf) (hu.fields g hg)
  have hindexes : diffMaps CompositeIndex.describe CompositeIndex.diff t.indexes u.indexes = [] ↔
      t.indexes = u.indexes :=
    diffMaps_eq_nil_iff <| diff_eq_nil_iff_of_get? ht.indexKeys hu.indexKeys fun i _ j _ =>
      CompositeIndex.diff_eq_nil_iff
  rw [diff, List.append_eq_nil_iff, List.append_eq_nil_iff, ofProperty_eq_nil_iff, hfields, hindexes]
  obtain ⟨name, id, fields, indexes⟩ := t
  obtain ⟨name', id', fields', indexes'⟩ := u
  obtain rfl : id = id' := hid
  simp [and_assoc]

namespace Model

variable {m n : Model}

theorem diff_eq_nil_iff_of_objectType? (hm : m.WellFormed) (hn : n.WellFormed) {id : StorageId} {t u : ObjectType}
    (ht : m.objectTypes.get? id = some t) (hu : n.objectTypes.get? id = some u) : t.diff u = [] ↔ t = u :=
  diff_eq_nil_iff_of_get? hm.keys hn.keys (fun t ht u hu =>
    ObjectType.diff_eq_nil_iff (hm.objectTypes t ht) (hn.objectTypes u hu)) ht hu

/-- Well-formed schemas without differences are the same. -/
theorem diff_eq_nil_iff (hm : m.WellFormed) (hn : n.WellFormed) : m.diff n = [] ↔ m = n := by
  have hobjectTypes : m.diff n = [] ↔ m.objectTypes = n.objectTypes :=
    diffMaps_eq_nil_iff (diff_eq_nil_iff_of_objectType? hm hn)
  rw [hobjectTypes]
  obtain ⟨objectTypes⟩ := m
  obtain ⟨objectTypes'⟩ := n
  simp

/-- Schemas that are not compatible differ in something that can be told. -/
theorem diff_ne_nil (hm : m.WellFormed) (hn : n.WellFormed) (h : n.compatible m = false) : m.diff n ≠ [] := by
  intro hdiff
  obtain rfl := (diff_eq_nil_iff hm hn).1 hdiff
  rw [m.compatible_self] at h
  cases h

/-- The differences of valid schemas are there just where the schemas are not the same, in order of the storage IDs:
one for each object type that is new, gone or changed, with the details of the change, and no other. -/
theorem diff_exact (hm : m.validate = .ok ()) (hn : n.validate = .ok ()) :
    (m.diff n = [] ↔ m = n) ∧
    (∃ ids : List StorageId, ids.Pairwise (· < ·) ∧ (∀ id, id ∈ ids ↔ m.objectType? id ≠ n.objectType? id) ∧
      List.Forall₂ (fun id => Diff.Tells ObjectType.describe ObjectType.diff (m.objectType? id) (n.objectType? id)) ids
        (m.diff n)) ∧
    (m.compatible n = false ∨ n.compatible m = false → m.diff n ≠ []) := by
  have hm := wellFormed_of_validate hm
  have hn := wellFormed_of_validate hn
  refine ⟨diff_eq_nil_iff hm hn, diffMaps_tells _ (diff_eq_nil_iff_of_objectType? hm hn), ?_⟩
  rintro (h | h) hnil
  · obtain rfl := (diff_eq_nil_iff hm hn).1 hnil
    exact Bool.false_ne_true (h.symm.trans m.compatible_self)
  · exact diff_ne_nil hm hn h hnil

/-- One object type gets another field, one goes, one comes, and one stays. -/
theorem diff_exact_revised :
    let shoe (fields : List Field) : ObjectType := fields.foldl ObjectType.addField (.create "Shoe" 1)
    let size : Field := .simple ⟨"size", 2, true, .value "Int" 0⟩
    let tags : Field := .complex ⟨"tags", 3, .set, [⟨"element", 4, false, .value "String" 0⟩]⟩
    let old : Model := ((Model.empty.add (shoe [size])).add (.create "Lace" 5)).add (.create "Heel" 6)
    let new : Model := ((Model.empty.add (shoe [size, tags])).add (.create "Heel" 6)).add (.create "Sole" 7)
    new.validate = .ok () ∧ old.validate = .ok () ∧ new ≠ old ∧ new.diff old ≠ [] ∧
      (new.diff old).map Diff.text =
        ["changed object type \"Shoe\" (#1)", "removed object type \"Lace\" (#5)", "added object type \"Sole\" (#7)"] ∧
      ∃ ids : List StorageId, ids.length = 3 ∧ (∀ id, id ∈ ids ↔ new.objectType? id ≠ old.objectType? id) := by
  intro shoe size tags old new
  have hnew : new.validate = .ok () := by decide +kernel
  have hold : old.validate = .ok () := by decide +kernel
  have htexts : (new.diff old).map Diff.text = ["changed object type \"Shoe\" (#1)",
    "removed object type \"Lace\" (#5)", "added object type \"Sole\" (#7)"] := by decide +kernel
  have hne : new ≠ old := by decide +kernel
  obtain ⟨hempty, ⟨ids, -, hmem, hall⟩, -⟩ := diff_exact hnew hold
  refine ⟨hnew, hold, hne, fun h => hne (hempty.1 h), htexts, ids, ?_, hmem⟩
  rw [hall.length_eq, ← List.length_map Diff.text, htexts]
  rfl

end Model

end Keyspace.Schema
