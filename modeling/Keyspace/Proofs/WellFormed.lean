import Keyspace.Proofs.Registry

/-!
What a valid schema is, apart from how it is checked. Each item is well formed on its own and is kept under its own
storage ID, names are not used twice where they would be confused, indexes are over simple fields of their object
type, and one ID stands for one item wherever it is used. The checks accept just the schemas of this kind.
-/
namespace Keyspace.Schema

/-! ## Well-formed models -/

/-- An index is over two to four different simple fields of its object type. -/
structure CompositeIndex.WellFormed (t : ObjectType) (i : CompositeIndex) : Prop where
  name : IsName i.name
  id : IsStorageId i.id
  arity : 2 ≤ i.fields.length ∧ i.fields.length ≤ 4
  distinct : i.fields.Nodup
  fields : ∀ id ∈ i.fields, ∃ f, Field.simple f ∈ t.fields.values ∧ f.id = id

structure ObjectType.WellFormed (t : ObjectType) : Prop where
  name : IsName t.name
  id : IsStorageId t.id
  fieldKeys : ∀ e ∈ t.fields.toList, e.1 = e.2.id
  fields : ∀ f ∈ t.fields.values, f.WellFormed
  fieldNames : (t.fields.values.map (·.name)).Nodup
  indexKeys : ∀ e ∈ t.indexes.toList, e.1 = e.2.id
  indexes : ∀ i ∈ t.indexes.values, i.WellFormed t
  indexNames : (t.indexes.values.map (·.name)).Nodup

/-- The items of a model, wherever they are. -/
inductive Model.Has (m : Model) : Item → Prop where
  | objectType {t} (ht : t ∈ m.objectTypes.values) : Has m (.objectType t)
  | field {t f} (ht : t ∈ m.objectTypes.values) (hf : f ∈ t.fields.values) : Has m (.field t f)
  | subField {t parent f} (ht : t ∈ m.objectTypes.values) (hparent : Field.complex parent ∈ t.fields.values)
    (hf : f ∈ parent.subFields) : Has m (.subField t parent f)
  | index {t i} (ht : t ∈ m.objectTypes.values) (hi : i ∈ t.indexes.values) : Has m (.index t i)

/-- Object types are kept under their own IDs and have different names, and items that share an ID are the same,
where a sub-field is the simple field that it is. -/
structure Model.WellFormed (m : Model) : Prop where
  keys : ∀ e ∈ m.objectTypes.toList, e.1 = e.2.id
  objectTypes : ∀ t ∈ m.objectTypes.values, t.WellFormed
  names : (m.objectTypes.values.map (·.name)).Nodup
  shared : ∀ a b, m.Has a → m.Has b → a.id = b.id → a.use = b.use

/-! ## Storage IDs across the schema -/

theorem Field.mem_items_iff {t : ObjectType} {f : Field} {item : Item} :
    item ∈ f.items t ↔ item = .field t f ∨
      ∃ parent, f = .complex parent ∧ ∃ s ∈ parent.subFields, item = .subField t parent s := by
  cases f with
  | simple f => simp [items]
  | counter f => simp [items]
  | complex parent => simp [items, eq_comm]

/-- The walk over a model comes to all its items. -/
theorem Model.mem_items_iff {m : Model} {item : Item} : item ∈ m.items ↔ m.Has item := by
  simp only [items, ObjectType.items, List.mem_flatMap, List.mem_append, List.mem_cons, List.mem_map,
    Field.mem_items_iff]
  constructor
  · rintro ⟨t, ht, (rfl | ⟨f, hf, rfl | ⟨parent, rfl, s, hs, rfl⟩⟩) | ⟨i, hi, rfl⟩⟩
    · exact .objectType ht
    · exact .field ht hf
    · exact .subField ht hf hs
    · exact .index ht hi
  · intro h
    cases h with
    | objectType ht => exact ⟨_, ht, .inl (.inl rfl)⟩
    | field ht hf => exact ⟨_, ht, .inl (.inr ⟨_, hf, .inl rfl⟩)⟩
    | subField ht hparent hf => exact ⟨_, ht, .inl (.inr ⟨_, hparent, .inr ⟨_, rfl, _, hf, rfl⟩⟩)⟩
    | index ht hi => exact ⟨_, ht, .inr ⟨_, hi, rfl⟩⟩

namespace Registry

variable {r : Registry} {items : List Item} {item : Item}

/-- An item can be registered if its ID stands for nothing else yet. -/
theorem exists_register (h : ∀ x, r.get? item.id = some x → x.use = item.use) :
    ∃ s, r.register item = .ok s := by
  rw [register]
  cases hget : r.get? item.id with
  | none => exact ⟨_, rfl⟩
  | some x => exact ⟨r, if_pos (Item.same_iff.2 (h x hget))⟩

/-- Items of which any two with one ID are the same can all be registered. -/
theorem exists_foldlM_register (hshared : ∀ a ∈ items, ∀ b ∈ items, a.id = b.id → a.use = b.use)
    (hr : ∀ a ∈ items, ∀ x, r.get? a.id = some x → x.use = a.use) : ∃ s, items.foldlM register r = .ok s := by
  induction items generalizing r with
  | nil => exact ⟨r, rfl⟩
  | cons item items ih =>
    obtain ⟨hitem, hrest⟩ := List.forall_mem_cons.1 hr
    obtain ⟨s, hs⟩ := exists_register hitem
    rw [List.foldlM_cons, hs, ok_bind]
    refine ih (fun a ha b hb => ?_) fun a ha x hx => ?_
    · exact hshared a (List.mem_cons_of_mem _ ha) b (List.mem_cons_of_mem _ hb)
    · rcases get?_of_register hs hx with hx | ⟨hid, rfl⟩
      · exact hrest a ha x hx
      · exact hshared x List.mem_cons_self a (List.mem_cons_of_mem _ ha) hid.symm

theorem checkIndex_iff {t : ObjectType} {i : CompositeIndex} :
    checkIndex t i = .ok () ↔ ∀ id ∈ i.fields, ∃ f, t.field? id = some (.simple f) := by
  rw [checkIndex, forM_eq_ok_iff]
  refine forall_congr' fun id => imp_congr_right fun _ => ?_
  split
  · next f hf => exact iff_of_true rfl ⟨f, hf⟩
  · next f hother hf => exact iff_of_false nofun fun ⟨g, hg⟩ => hother g (Option.some.inj (hf.symm.trans hg))
  · next hnone => exact iff_of_false nofun fun ⟨g, hg⟩ => nomatch hnone.symm.trans hg

/-- A model has a registry if items that share IDs are the same and indexes are over simple fields. -/
theorem exists_ofModel_iff {m : Model} : (∃ r, ofModel m = .ok r) ↔
    (∀ a b, m.Has a → m.Has b → a.id = b.id → a.use = b.use) ∧
      ∀ t ∈ m.objectTypes.values, ∀ i ∈ t.indexes.values, ∀ id ∈ i.fields, ∃ f, t.field? id = some (.simple f) := by
  have hindexes : (m.objectTypes.values.forM fun t => t.indexes.values.forM (checkIndex t)) = .ok () ↔
      ∀ t ∈ m.objectTypes.values, ∀ i ∈ t.indexes.values, ∀ id ∈ i.fields, ∃ f, t.field? id = some (.simple f) := by
    simp only [forM_eq_ok_iff, checkIndex_iff]
  rw [← hindexes]
  constructor
  · rintro ⟨r, hr⟩
    refine ⟨fun a b ha hb => ?_, ?_⟩
    · exact (stands_of_ofModel hr (Model.mem_items_iff.2 ha)).use_eq (stands_of_ofModel hr (Model.mem_items_iff.2 hb))
    · obtain ⟨s, -, h⟩ := exists_of_bind_eq_ok hr
      exact (bind_eq_ok_iff.1 h).1
  · rintro ⟨hshared, hindexes⟩
    have hitems : ∀ a ∈ m.items, ∀ b ∈ m.items, a.id = b.id → a.use = b.use := fun a ha b hb =>
      hshared a b (Model.mem_items_iff.1 ha) (Model.mem_items_iff.1 hb)
    obtain ⟨s, hs⟩ := exists_foldlM_register (r := empty) hitems fun _ _ _ hx => nomatch hx
    exact ⟨s, by rw [ofModel, hs, ok_bind, hindexes, ok_bind]; rfl⟩

end Registry

/-! ## The whole -/

/-- Where fields are kept under their own IDs, looking one up by its ID is finding it. -/
theorem ObjectType.field?_eq_simple_iff {t : ObjectType} (hkeys : ∀ e ∈ t.fields.toList, e.1 = e.2.id)
    {id : StorageId} : (∃ f, t.field? id = some (.simple f)) ↔ ∃ f, Field.simple f ∈ t.fields.values ∧ f.id = id := by
  refine exists_congr fun f => ?_
  rw [field?, ← SortedMap.mem_toList_iff]
  constructor
  · intro hmem
    exact ⟨List.mem_map_of_mem hmem, (hkeys _ hmem).symm⟩
  · rintro ⟨hmem, rfl⟩
    obtain ⟨e, he, hf⟩ := List.mem_map.1 hmem
    have hkey : e.1 = f.id := (hkeys e he).trans (congrArg Field.id hf)
    rwa [← hkey, ← hf]

/-- What passes the check is well formed. -/
theorem Model.wellFormed_of_validate {m : Model} (h : m.validate = .ok ()) : m.WellFormed := by
  obtain ⟨⟨hkeys, htypes, hnames⟩, hregistry⟩ := validate_iff.1 h
  obtain ⟨hshared, hindexes⟩ := Registry.exists_ofModel_iff.1 hregistry
  refine ⟨hkeys, fun t ht => ?_, hnames, hshared⟩
  obtain ⟨hname, hid, ⟨hfieldKeys, hfields, hfieldNames⟩, hindexKeys, hvalid, hindexNames⟩ :=
    ObjectType.validate_iff.1 (htypes t ht)
  refine ⟨hname, hid, hfieldKeys, fun f hf => Field.validate_iff.1 (hfields f hf), hfieldNames, hindexKeys, ?_,
    hindexNames⟩
  intro i hi
  obtain ⟨hname, hid, harity, hdistinct⟩ := CompositeIndex.validate_iff.1 (hvalid i hi)
  exact ⟨hname, hid, harity, hdistinct, fun id hmem =>
    (ObjectType.field?_eq_simple_iff hfieldKeys).1 (hindexes t ht i hi id hmem)⟩

/-- What is well formed passes the check. -/
theorem Model.WellFormed.validate {m : Model} (h : m.WellFormed) : m.validate = .ok () := by
  refine validate_iff.2 ⟨⟨h.keys, fun t ht => ?_, h.names⟩, ?_⟩
  · have ht := h.objectTypes t ht
    refine ObjectType.validate_iff.2 ⟨ht.name, ht.id, ⟨ht.fieldKeys, ?_, ht.fieldNames⟩, ht.indexKeys, ?_,
      ht.indexNames⟩
    · exact fun f hf => Field.validate_iff.2 (ht.fields f hf)
    · exact fun i hi =>
        have hi := ht.indexes i hi
        CompositeIndex.validate_iff.2 ⟨hi.name, hi.id, hi.arity, hi.distinct⟩
  · refine Registry.exists_ofModel_iff.2 ⟨h.shared, fun t ht i hi id hmem => ?_⟩
    have ht := h.objectTypes t ht
    exact (ObjectType.field?_eq_simple_iff ht.fieldKeys).2 ((ht.indexes i hi).fields id hmem)

/-- The checks of a schema accept just the well-formed ones, however they have been put together. -/
theorem Model.validate_iff_wellFormed (m : Model) : m.validate = .ok () ↔ m.WellFormed :=
  ⟨wellFormed_of_validate, WellFormed.validate⟩

end Keyspace.Schema
