import Keyspace.Proofs.WellFormed
import Mathlib.Data.List.Basic

/-!
How two schemas agree on storage IDs. Of equal items a registry keeps the one that it comes to first, which may be a
field in one schema and a sub-field in the other. Comparing two registries nevertheless decides whether all items of
the two schemas agree, whichever of the two comes first, and reports the least ID in dispute.
-/
namespace Keyspace.Schema

/-! ## Items that agree -/

/-- Items to which two schemas may give one storage ID: any two object types, and fields and indexes that are
compatible, where a sub-field is the simple field that it is. -/
inductive Item.Agree : Item → Item → Prop where
  | objectTypes (t u : ObjectType) : Agree (.objectType t) (.objectType u)
  | fields {t u f g} (h : f.compatible g = true) : Agree (.field t f) (.field u g)
  | fieldAndSubField {t u parent f g} (h : f.compatible g = true) : Agree (.field t (.simple f)) (.subField u parent g)
  | subFieldAndField {t u parent f g} (h : f.compatible g = true) : Agree (.subField t parent f) (.field u (.simple g))
  | subFields {t u p q f g} (h : f.compatible g = true) : Agree (.subField t p f) (.subField u q g)
  | indexes {t u i j} (h : i.compatible j = true) : Agree (.index t i) (.index u j)

/-- The check of two items succeeds just if they agree. -/
theorem Item.consistent_iff {a b : Item} : a.consistent b = true ↔ a.Agree b := by
  constructor
  · intro h
    rw [consistent_eq] at h
    cases a with
    | objectType t =>
      cases b with
      | objectType u => exact .objectTypes t u
      | _ => cases h
    | field t f =>
      cases b with
      | field u g => exact .fields h
      | subField u q g =>
        cases f with
        | simple f => exact .fieldAndSubField h
        | _ => cases h
      | _ => cases h
    | subField t p f =>
      cases b with
      | field u g =>
        cases g with
        | simple g => exact .subFieldAndField h
        | _ => cases h
      | subField u q g => exact .subFields h
      | _ => cases h
    | index t i =>
      cases b with
      | index u j => exact .indexes h
      | _ => cases h
  · rintro (_ | h | h | h | h | h)
    · rfl
    all_goals exact h

/-- Two schemas use a storage ID for items that do not agree. -/
def Model.Dispute (m n : Model) (id : StorageId) : Prop :=
  ∃ a b, m.Has a ∧ n.Has b ∧ a.id = id ∧ b.id = id ∧ ¬a.Agree b

/-! ## Registries that agree -/

namespace Registry

variable {r s : Registry} {m n : Model}

/-- The items that registries keep are as good as the items that they stand for. -/
theorem dispute_iff (hr : ofModel m = .ok r) (hs : ofModel n = .ok s) {id : StorageId} :
    m.Dispute n id ↔ ∃ x y, r.Clash s id x y := by
  constructor
  · rintro ⟨a, b, ha, hb, rfl, hid, hnot⟩
    obtain ⟨x, hx, hxa⟩ := stands_of_ofModel hr (Model.mem_items_iff.2 ha)
    obtain ⟨y, hy, hyb⟩ := stands_of_ofModel hs (Model.mem_items_iff.2 hb)
    refine ⟨x, y, hx, hid ▸ hy, ?_⟩
    rw [Item.consistent_eq, hxa, hyb, ← Item.consistent_eq]
    exact Bool.eq_false_iff.2 fun h => hnot (Item.consistent_iff.1 h)
  · rintro ⟨x, y, hclash⟩
    obtain ⟨hx, hxid⟩ := mem_items_of_ofModel hr hclash.left
    obtain ⟨hy, hyid⟩ := mem_items_of_ofModel hs hclash.right
    refine ⟨x, y, Model.mem_items_iff.1 hx, Model.mem_items_iff.1 hy, hxid, hyid, fun h => ?_⟩
    rw [← Item.consistent_iff, hclash.inconsistent] at h
    cases h

/-- Two registries pass the check just if the items of their models with one ID agree. -/
theorem checkConsistent_iff_of_ofModel (hr : ofModel m = .ok r) (hs : ofModel n = .ok s) :
    r.checkConsistent s = .ok () ↔ ∀ a b, m.Has a → n.Has b → a.id = b.id → a.Agree b := by
  rw [checkConsistent_eq_ok_iff]
  constructor
  · intro h a b ha hb hid
    by_contra hnot
    obtain ⟨x, y, hclash⟩ := (dispute_iff hr hs).1 ⟨a, b, ha, hb, hid, rfl, hnot⟩
    exact h b.id x y hclash
  · intro h id x y hclash
    obtain ⟨a, b, ha, hb, rfl, hid, hnot⟩ := (dispute_iff hr hs).2 ⟨x, y, hclash⟩
    exact hnot (h a b ha hb hid.symm)

/-- Whatever the registries of two schemas keep, comparing them, in either order, decides whether all items of the
schemas that share an ID agree, and a failure names two items that do not, under the least ID in dispute. -/
theorem checkConsistent_decides (hr : ofModel m = .ok r) (hs : ofModel n = .ok s) :
    (r.checkConsistent s = .ok () ↔ ∀ a b, m.Has a → n.Has b → a.id = b.id → a.consistent b = true) ∧
    (∀ a b : Item, a.consistent b = true ↔ a.Agree b) ∧
    (r.checkConsistent s = .ok () ↔ s.checkConsistent r = .ok ()) ∧
    ∀ why, r.checkConsistent s = .error why → ∃ a b, m.Has a ∧ n.Has b ∧ a.id = b.id ∧ a.consistent b = false ∧
      why = .storageIdConflict a.id b.describe a.describe ∧ ∀ id, m.Dispute n id → a.id ≤ id := by
  have hagree : ∀ {a b : Item}, a.Agree b → b.Agree a := fun {a b} h => by
    rw [← Item.consistent_iff, Item.consistent_eq, Use.consistent_comm, ← Item.consistent_eq]
    exact Item.consistent_iff.2 h
  refine ⟨?_, fun a b => Item.consistent_iff, ?_, fun why h => ?_⟩
  · simp only [checkConsistent_iff_of_ofModel hr hs, Item.consistent_iff]
  · rw [checkConsistent_iff_of_ofModel hr hs, checkConsistent_iff_of_ofModel hs hr]
    exact ⟨fun h a b ha hb hid => hagree (h b a hb ha hid.symm), fun h a b ha hb hid => hagree (h b a hb ha hid.symm)⟩
  · obtain ⟨id, a, b, hclash, rfl, hleast⟩ := exists_least_clash h
    obtain ⟨ha, rfl⟩ := mem_items_of_ofModel hr hclash.left
    obtain ⟨hb, hid⟩ := mem_items_of_ofModel hs hclash.right
    refine ⟨a, b, Model.mem_items_iff.1 ha, Model.mem_items_iff.1 hb, hid.symm, hclash.inconsistent, rfl, ?_⟩
    intro id' hdispute
    obtain ⟨x, y, hclash'⟩ := (dispute_iff hr hs).1 hdispute
    exact hleast id' x y hclash'

/-- The first schema has one item as a field and as a sub-field, and keeps the sub-field; the second one uses its ID for a
field of another type, and a further ID for a counter. -/
theorem checkConsistent_decides_shared :
    let element : SimpleField := ⟨"element", 5, false, .value "Int" 0⟩
    let fields : List Field := [.complex ⟨"sizes", 4, .list, [element]⟩, .simple element,
      .simple ⟨"size", 6, false, .value "Int" 0⟩]
    let others : List Field := [.simple ⟨"name", 5, false, .value "String" 0⟩, .counter ⟨"size", 6⟩]
    let m := Model.empty.add (fields.foldl ObjectType.addField (.create "Shoe" 1))
    let n := Model.empty.add (others.foldl ObjectType.addField (.create "Boot" 1))
    let r := (ofModel m).toOption.getD empty
    let s := (ofModel n).toOption.getD empty
    let why := SchemaError.storageIdConflict 5 "simple field \"name\" (#5) of object type \"Boot\" (#1)"
      "sub-field \"element\" (#5) of field \"sizes\" of object type \"Shoe\" (#1)"
    ofModel m = .ok r ∧ ofModel n = .ok s ∧ r.checkConsistent s = .error why ∧ s.checkConsistent r ≠ .ok () ∧
      ∀ id, m.Dispute n id → 5 ≤ id := by
  intro element fields others m n r s why
  have hr : ofModel m = .ok r := by decide +kernel
  have hs : ofModel n = .ok s := by decide +kernel
  have hwhy : r.checkConsistent s = .error why := by decide +kernel
  obtain ⟨-, -, hsymm, hleast⟩ := checkConsistent_decides hr hs
  obtain ⟨a, b, -, -, -, -, heq, hdispute⟩ := hleast why hwhy
  obtain ⟨hid, -, -⟩ := SchemaError.storageIdConflict.inj heq
  refine ⟨hr, hs, hwhy, fun hok => ?_, fun id h => hid ▸ hdispute id h⟩
  cases (hsymm.2 hok).symm.trans hwhy

end Registry

end Keyspace.Schema
