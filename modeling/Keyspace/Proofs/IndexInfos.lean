import Keyspace.Proofs.Admission

/-!
What a schema says of its indexes. Object types may share an index, and then they share the fields that it is over: one
entry tells of the index for all of them. Only the object type in the entry is that of one of them, the last.
-/
namespace Keyspace

open Schema (Model ObjectType CompositeIndex StorageId SimpleField Field SchemaError)
open Index (IndexInfo FieldInfo)

theorem forall₂_of_mapM_eq_ok {ε α β : Type} {f : α → Except ε β} {as : List α} {bs : List β} (h : as.mapM f = .ok bs) :
    List.Forall₂ (fun a b => f a = .ok b) as bs := by
  induction as generalizing bs with
  | nil =>
    cases h
    exact .nil
  | cons a as ih =>
    rw [List.mapM_cons] at h
    obtain ⟨b, hb, h⟩ := exists_of_bind_eq_ok h
    obtain ⟨bs, hbs, h⟩ := exists_of_bind_eq_ok h
    cases h
    exact .cons hb (ih hbs)

/-! ## What is told of an index -/

namespace Index

/-- A field of an object type is told by its ID, its name and the name of its type. -/
def FieldInfo.Tells (t : ObjectType) (id : StorageId) (field : FieldInfo) : Prop :=
  ∃ f, Field.simple f ∈ t.fields.values ∧ f.id = id ∧ field = ⟨id, f.name, f.typeName⟩

namespace IndexInfo

variable {t u : ObjectType} {i : CompositeIndex} {info : IndexInfo}

/-- An index is told by its ID, its name and, in order, its fields as an object type has them. -/
structure Tells (info : IndexInfo) (t : ObjectType) (i : CompositeIndex) : Prop where
  id : info.id = i.id
  name : info.name = i.name
  fields : List.Forall₂ (FieldInfo.Tells t) i.fields info.fields

/-- The entry of a field tells the field. -/
theorem tells_of_resolveField (hkeys : ∀ e ∈ t.fields.toList, e.1 = e.2.id) {id : StorageId} {field : FieldInfo}
    (h : resolveField t i id = .ok field) : FieldInfo.Tells t id field := by
  unfold resolveField at h
  split at h
  · next f hf =>
    cases h
    obtain ⟨g, hg, hsimple⟩ := Option.bind_eq_some_iff.1 hf
    have hmem := SortedMap.mem_toList_iff.2 hg
    cases g with
    | simple g =>
      cases hsimple
      have hid : id = f.id := hkeys _ hmem
      exact ⟨f, List.mem_map_of_mem hmem, hid.symm, by rw [hid]; rfl⟩
    | _ => cases hsimple
  · cases h

theorem eq_of_resolve (h : resolve t i = .ok info) :
    ∃ fields, i.fields.mapM (resolveField t i) = .ok fields ∧ info = ⟨i.id, i.name, t.id, fields⟩ := by
  unfold resolve at h
  dsimp only at h
  split at h
  · cases h
  · obtain ⟨fields, hfields, h⟩ := exists_of_bind_eq_ok h
    cases h
    exact ⟨fields, hfields, rfl⟩

/-- What is resolved is told of the object type that it is resolved in. -/
theorem tells_of_resolve (hkeys : ∀ e ∈ t.fields.toList, e.1 = e.2.id) (h : resolve t i = .ok info) :
    info.Tells t i := by
  obtain ⟨fields, hfields, rfl⟩ := eq_of_resolve h
  exact ⟨rfl, rfl, (forall₂_of_mapM_eq_ok hfields).imp fun _ _ => tells_of_resolveField hkeys⟩

theorem objectType_of_resolve (h : resolve t i = .ok info) : info.objectType = t.id := by
  obtain ⟨fields, -, rfl⟩ := eq_of_resolve h
  rfl

/-- Where two object types have the fields of an index in common, what is told of one is told of the other. -/
theorem Tells.of_common (h : info.Tells u i) (hcommon : ∀ id ∈ i.fields, ∀ f, Field.simple f ∈ u.fields.values →
    f.id = id → Field.simple f ∈ t.fields.values) : info.Tells t i := by
  have hfields := (List.forall₂_and_left _ _).2 ⟨hcommon, h.fields⟩
  refine ⟨h.id, h.name, hfields.imp ?_⟩
  rintro id field ⟨hid, f, hf, hfid, rfl⟩
  exact ⟨f, hid f hf hfid, hfid, rfl⟩

end IndexInfo

end Index

/-! ## Shared indexes -/

namespace Schema.Model

variable {m : Model} {t u : ObjectType} {i j : CompositeIndex}

/-- The indexes of a model, each with the object type that declares it, in the order of the object types. -/
def declared (m : Model) : List (ObjectType × CompositeIndex) :=
  m.objectTypes.values.flatMap fun t => t.indexes.values.map fun i => (t, i)

theorem mem_declared_iff : (t, i) ∈ m.declared ↔ t ∈ m.objectTypes.values ∧ i ∈ t.indexes.values := by
  simp only [declared, List.mem_flatMap, List.mem_map, Prod.mk.injEq]
  constructor
  · rintro ⟨u, hu, j, hj, rfl, rfl⟩
    exact ⟨hu, hj⟩
  · rintro ⟨ht, hi⟩
    exact ⟨t, ht, i, hi, rfl, rfl⟩

/-- Object types declare their indexes in the order of their IDs. -/
theorem pairwise_declared (hkeys : ∀ e ∈ m.objectTypes.toList, e.1 = e.2.id) :
    m.declared.Pairwise fun a b => a.1.id ≤ b.1.id := by
  rw [declared, List.pairwise_flatMap]
  constructor
  · intro t _
    exact List.pairwise_map.2 (List.pairwise_of_forall fun _ _ => UInt32.le_refl t.id)
  · refine List.pairwise_map.2 (m.objectTypes.ascending.imp_of_mem ?_)
    intro a b ha hb hlt x hx y hy
    obtain ⟨i, -, rfl⟩ := List.mem_map.1 hx
    obtain ⟨j, -, rfl⟩ := List.mem_map.1 hy
    rw [hkeys a ha, hkeys b hb] at hlt
    exact UInt32.le_of_lt hlt

/-- Indexes with one ID are one index. -/
theorem WellFormed.index_eq (h : m.WellFormed) (hti : (t, i) ∈ m.declared) (huj : (u, j) ∈ m.declared)
    (hid : i.id = j.id) : i = j := by
  obtain ⟨ht, hi⟩ := mem_declared_iff.1 hti
  obtain ⟨hu, hj⟩ := mem_declared_iff.1 huj
  exact Use.index.inj (h.shared (.index t i) (.index u j) (.index ht hi) (.index hu hj) hid)

/-- A simple field of an object type that is the field of an index of another is a field of that one, too. -/
theorem WellFormed.field_mem (h : m.WellFormed) (hti : (t, i) ∈ m.declared) (hu : u ∈ m.objectTypes.values)
    {f : SimpleField} (hf : Field.simple f ∈ u.fields.values) (hid : f.id ∈ i.fields) :
    Field.simple f ∈ t.fields.values := by
  obtain ⟨ht, hi⟩ := mem_declared_iff.1 hti
  obtain ⟨g, hg, hgid⟩ := ((h.objectTypes t ht).indexes i hi).fields f.id hid
  have hsame := h.shared (.field t (.simple g)) (.field u (.simple f)) (.field ht hg) (.field hu hf) hgid
  rw [← Use.field.inj hsame]
  exact hg

end Schema.Model

/-! ## The entries for all indexes -/

/-- Entries are put into a map one after the other. What is found under a key is the last that was put there, or else what
has been there before. -/
theorem get?_foldlM_insert {ε α β : Type} {key : α → StorageId} {read : α → Except ε β} {as : List α}
    {m n : SortedMap StorageId β} (h : as.foldlM (fun m a => do return m.insert (key a) (← read a)) m = .ok n)
    (k : StorageId) :
    (∃ before a after b, as = before ++ a :: after ∧ key a = k ∧ (∀ x ∈ after, key x ≠ k) ∧ read a = .ok b ∧
      n.get? k = some b) ∨ ((∀ a ∈ as, key a ≠ k) ∧ n.get? k = m.get? k) := by
  induction as generalizing m with
  | nil =>
    cases h
    exact .inr ⟨nofun, rfl⟩
  | cons a as ih =>
    obtain ⟨m', hm', hrest⟩ := exists_of_bind_eq_ok h
    obtain ⟨b, hb, hinsert⟩ := exists_of_bind_eq_ok hm'
    cases hinsert
    rcases ih hrest with ⟨before, a', after, b', rfl, ha', hafter, hb', hn⟩ | ⟨hnone, hn⟩
    · exact .inl ⟨a :: before, a', after, b', rfl, ha', hafter, hb', hn⟩
    · by_cases ha : key a = k
      · subst ha
        rw [SortedMap.get?_insert_self] at hn
        exact .inl ⟨[], a, as, b, rfl, rfl, hnone, hb, hn⟩
      · rw [SortedMap.get?_insert, if_neg (Ne.symm ha)] at hn
        exact .inr ⟨List.forall_mem_cons.2 ⟨ha, hnone⟩, hn⟩

namespace Catalog

variable {schema : Model} {infos : SortedMap StorageId IndexInfo} {t : ObjectType} {i : CompositeIndex}

/-- The walk over object types and their indexes is one over all indexes. -/
theorem indexInfos_eq (schema : Model) : indexInfos schema = schema.declared.foldlM (fun infos p => do
    return infos.insert p.2.id (← IndexInfo.resolve p.1 p.2)) .empty := by
  rw [indexInfos, Model.declared]
  generalize (SortedMap.empty : SortedMap StorageId IndexInfo) = infos
  induction schema.objectTypes.values generalizing infos with
  | nil => rfl
  | cons t ts ih =>
    rw [List.flatMap_cons, List.foldlM_append, List.foldlM_cons, List.foldlM_map]
    exact bind_congr ih

structure Kept (schema : Model) (infos : SortedMap StorageId IndexInfo) (id : StorageId) (owner : ObjectType)
    (i : CompositeIndex) (info : IndexInfo) : Prop where
  get? : infos.get? id = some info
  declared : (owner, i) ∈ schema.declared
  id_eq : i.id = id
  resolve : IndexInfo.resolve owner i = .ok info
  last : ∀ t j, (t, j) ∈ schema.declared → j.id = id → t.id ≤ owner.id

/-- For each ID there is the entry of the last object type that declares an index of it, or none and no such object
type. -/
theorem kept_or_none (h : schema.WellFormed) (hinfos : indexInfos schema = .ok infos) (id : StorageId) :
    (∃ owner i info, Kept schema infos id owner i info) ∨
      ((∀ t i, (t, i) ∈ schema.declared → i.id ≠ id) ∧ infos.get? id = none) := by
  rw [indexInfos_eq] at hinfos
  rcases get?_foldlM_insert hinfos id with ⟨before, ⟨owner, i⟩, after, info, heq, hi, hafter, hinfo, hget⟩ | ⟨hnone, hget⟩
  · have hsorted := Model.pairwise_declared h.keys
    rw [heq] at hsorted
    refine .inl ⟨owner, i, info, hget, ?_, hi, hinfo, ?_⟩
    · simp [heq]
    · intro t j hj hid
      rw [heq, List.mem_append, List.mem_cons] at hj
      rcases hj with hj | hj | hj
      · exact (List.pairwise_append.1 hsorted).2.2 _ hj _ List.mem_cons_self
      · cases hj
        exact UInt32.le_refl _
      · exact absurd hid (hafter _ hj)
  · exact .inr ⟨fun t i hti => hnone (t, i) hti, hget⟩

/-- Each index that is declared has an entry. -/
theorem exists_kept (h : schema.WellFormed) (hinfos : indexInfos schema = .ok infos) (hti : (t, i) ∈ schema.declared) :
    ∃ owner info, Kept schema infos i.id owner i info := by
  rcases kept_or_none h hinfos i.id with ⟨owner, j, info, hkept⟩ | ⟨hnone, -⟩
  · obtain rfl : i = j := h.index_eq hti hkept.declared hkept.id_eq.symm
    exact ⟨owner, info, hkept⟩
  · exact absurd rfl (hnone t i hti)

/-- The entry tells of the index for each object type that declares it. -/
theorem Kept.tells {id : StorageId} {owner : ObjectType} {info : IndexInfo} (h : schema.WellFormed)
    (hkept : Kept schema infos id owner i info) (hti : (t, i) ∈ schema.declared) : info.Tells t i := by
  have howner := (Model.mem_declared_iff.1 hkept.declared).1
  have htells := IndexInfo.tells_of_resolve (h.objectTypes owner howner).fieldKeys hkept.resolve
  refine htells.of_common ?_
  rintro id hid f hf rfl
  exact h.field_mem hti howner hf hid

/-- The indexes of a valid schema are all resolved. There is an entry just for each ID of an index, and the entry tells of
the index for every object type that declares it. -/
theorem indexInfos_exact (schema : Model) (h : schema.validate = .ok ()) : ∃ infos, indexInfos schema = .ok infos ∧
    (∀ id, infos.contains id = true ↔ ∃ t ∈ schema.objectTypes.values, ∃ i ∈ t.indexes.values, i.id = id) ∧
    ∀ t ∈ schema.objectTypes.values, ∀ i ∈ t.indexes.values,
      (∃ own, IndexInfo.resolve t i = .ok own) ∧ ∃ info, infos.get? i.id = some info ∧ info.Tells t i := by
  have h := Model.wellFormed_of_validate h
  obtain ⟨infos, hinfos⟩ := exists_indexInfos h
  refine ⟨infos, hinfos, ?_, ?_⟩
  · intro id
    constructor
    · intro hcontains
      rcases kept_or_none h hinfos id with ⟨t, i, info, hkept⟩ | ⟨-, hnone⟩
      · obtain ⟨ht, hi⟩ := Model.mem_declared_iff.1 hkept.declared
        exact ⟨t, ht, i, hi, hkept.id_eq⟩
      · simp [SortedMap.contains, hnone] at hcontains
    · rintro ⟨t, ht, i, hi, rfl⟩
      obtain ⟨owner, info, hkept⟩ := exists_kept h hinfos (Model.mem_declared_iff.2 ⟨ht, hi⟩)
      simp [SortedMap.contains, hkept.get?]
  · intro t ht i hi
    have hti := Model.mem_declared_iff.2 ⟨ht, hi⟩
    obtain ⟨owner, info, hkept⟩ := exists_kept h hinfos hti
    exact ⟨exists_resolve (h.objectTypes t ht).fieldKeys ((h.objectTypes t ht).indexes i hi), info, hkept.get?,
      hkept.tells h hti⟩

def commonFields : SortedMap StorageId Field :=
  (SortedMap.empty.insert 11 (.simple ⟨"a", 11, false, .value "string" 0⟩)).insert 12
    (.simple ⟨"b", 12, false, .value "long" 0⟩)

def commonIndex : CompositeIndex := ⟨"ix", 13, [12, 11]⟩

def withCommon (name : String) (id : StorageId) : ObjectType :=
  ⟨name, id, commonFields, SortedMap.empty.insert 13 commonIndex⟩

def commonSchema : Model := ⟨(SortedMap.empty.insert 10 (withCommon "A" 10)).insert 20 (withCommon "B" 20)⟩

theorem validate_commonSchema : commonSchema.validate = .ok () := by decide +kernel

/-- One entry tells of the index for both object types. -/
theorem indexInfos_exact_common : commonSchema.validate = .ok () ∧
    ∃ infos info, indexInfos commonSchema = .ok infos ∧ infos.get? 13 = some info ∧
      info.Tells (withCommon "A" 10) commonIndex ∧ info.Tells (withCommon "B" 20) commonIndex := by
  obtain ⟨infos, hinfos, -, hall⟩ := indexInfos_exact commonSchema validate_commonSchema
  obtain ⟨-, info, hinfo, ha⟩ := hall (withCommon "A" 10) (by decide) commonIndex (by decide)
  obtain ⟨-, info', hinfo', hb⟩ := hall (withCommon "B" 20) (by decide) commonIndex (by decide)
  obtain rfl : info = info' := Option.some.inj (hinfo.symm.trans hinfo')
  exact ⟨validate_commonSchema, infos, info, hinfos, hinfo, ha, hb⟩

/-! ## The object type in an entry -/

section

variable {δ τ : Type} [TransactionalDatabase δ τ] [KeyValueStore τ]

/-- A transaction that is bound to a schema has the entries for the indexes of the schema, which is valid. -/
theorem indexes_of_enter {schema : Model} {version : UInt32} {allowNew : Bool} {d d' : δ} {x : SchemaTransaction τ}
    (h : (enter schema version allowNew : CatalogM δ (SchemaTransaction τ)) d = (.ok x, d')) :
    schema.validate = .ok () ∧ indexInfos schema = .ok x.indexes := by
  cases hvalid : schema.validate with
  | error why =>
    rw [enter_invalid hvalid] at h
    cases h
  | ok =>
    obtain ⟨infos, hinfos⟩ := exists_indexInfos (Model.wellFormed_of_validate hvalid)
    have hcheck : (liftM schema.validate : CatalogM δ Unit) d = (.ok (), d) := by
      rw [liftSchema_apply, hvalid]
      rfl
    have hindexes : (liftM (indexInfos schema) : CatalogM δ (SortedMap StorageId IndexInfo)) d = (.ok infos, d) := by
      rw [liftSchema_apply, hinfos]
      rfl
    rw [enter, StoreM.bind_ok hcheck, StoreM.bind_ok hindexes, StoreM.bind_apply] at h
    refine ⟨rfl, ?_⟩
    split at h
    · next t s ht =>
      rcases happly : (apply schema (actualVersion schema version) allowNew : CatalogM τ Unit) t with ⟨why | ⟨⟩, t'⟩
      · rw [actualVersion] at happly
        rw [happly] at h
        cases h
      · rw [actualVersion] at happly
        rw [happly] at h
        cases h
        exact hinfos
    · cases h

/-- The entry that a transaction has for an index names an object type which declares the index, and of these the last.
So it is the object type that is asked for, unless a later one shares the index. -/
theorem objectType_of_enter {schema : Model} {version : UInt32} {allowNew : Bool} {d d' : δ} {x : SchemaTransaction τ}
    (h : (enter schema version allowNew : CatalogM δ (SchemaTransaction τ)) d = (.ok x, d')) :
    ∀ t ∈ schema.objectTypes.values, ∀ i ∈ t.indexes.values, ∃ info, x.indexInfo? i.id = some info ∧
      (∃ owner ∈ schema.objectTypes.values, i ∈ owner.indexes.values ∧ info.objectType = owner.id ∧
        ∀ u ∈ schema.objectTypes.values, i ∈ u.indexes.values → u.id ≤ owner.id) ∧
      ((∀ u ∈ schema.objectTypes.values, i ∈ u.indexes.values → u.id ≤ t.id) → info.objectType = t.id) := by
  obtain ⟨hvalid, hinfos⟩ := indexes_of_enter h
  have hschema := Model.wellFormed_of_validate hvalid
  intro t ht i hi
  obtain ⟨owner, info, hkept⟩ := exists_kept hschema hinfos (Model.mem_declared_iff.2 ⟨ht, hi⟩)
  obtain ⟨howner, hiowner⟩ := Model.mem_declared_iff.1 hkept.declared
  have hname : info.objectType = owner.id := IndexInfo.objectType_of_resolve hkept.resolve
  have hlast : ∀ u ∈ schema.objectTypes.values, i ∈ u.indexes.values → u.id ≤ owner.id := fun u hu hiu =>
    hkept.last u i (Model.mem_declared_iff.2 ⟨hu, hiu⟩) rfl
  refine ⟨info, hkept.get?, ⟨owner, howner, hiowner, hname, hlast⟩, ?_⟩
  intro hall
  rw [hname]
  exact UInt32.le_antisymm (hall owner howner hiowner) (hlast t ht hi)

end

/-- A valid schema is let into a started database without data. -/
theorem exists_enter_of_empty {db : Database} (hready : db.Ready) (hempty : db.data = .empty) {schema : Model}
    (hschema : schema.validate = .ok ()) (version : UInt32) :
    ∃ x, (enter schema version true : CatalogM Database (SchemaTransaction Transaction)) db = (.ok x, db) := by
  have hholds : Holds db.data .empty := by
    rw [hempty]
    exact Holds.empty fun _ _ => rfl
  obtain ⟨result, henter, hdecided⟩ := enter_decided hready hholds nofun hschema version true
  obtain ⟨x, rfl, -⟩ := hdecided.fresh rfl rfl nofun
  exact ⟨x, henter⟩

theorem exists_enter_commonSchema :
    ∃ x, (enter commonSchema 1 true : CatalogM Database (SchemaTransaction Transaction)) (Server.begin 2).database =
      (.ok x, (Server.begin 2).database) :=
  exists_enter_of_empty ⟨rfl, (Server.sound_begin 2).recalls.consecutive⟩ rfl validate_commonSchema 1

/-- Of the two object types that share the index, the entry names the second. -/
theorem objectType_of_enter_common :
    ∃ x, (enter commonSchema 1 true : CatalogM Database (SchemaTransaction Transaction)) (Server.begin 2).database =
      (.ok x, (Server.begin 2).database) ∧ ∃ info, x.indexInfo? 13 = some info ∧ info.objectType = 20 := by
  obtain ⟨x, hx⟩ := exists_enter_commonSchema
  obtain ⟨info, hinfo, -, hlast⟩ := objectType_of_enter hx (withCommon "B" 20) (by decide) commonIndex (by decide)
  exact ⟨x, hx, info, hinfo, hlast (by decide)⟩

/-- So it does not name the first, which declares the index as well. -/
theorem enter_common_objectType_ne : commonSchema.validate = .ok () ∧
    withCommon "A" 10 ∈ commonSchema.objectTypes.values ∧ commonIndex ∈ (withCommon "A" 10).indexes.values ∧
    ∃ x, (enter commonSchema 1 true : CatalogM Database (SchemaTransaction Transaction)) (Server.begin 2).database =
      (.ok x, (Server.begin 2).database) ∧
      ∃ info, x.indexInfo? commonIndex.id = some info ∧ info.objectType ≠ (withCommon "A" 10).id := by
  obtain ⟨x, hx⟩ := exists_enter_commonSchema
  have hinfos : indexInfos commonSchema =
      .ok (SortedMap.empty.insert 13 ⟨13, "ix", 20, [⟨12, "b", "long"⟩, ⟨11, "a", "string"⟩]⟩) := by decide +kernel
  have hindexes := Except.ok.inj ((indexes_of_enter hx).2.symm.trans hinfos)
  have hentry : x.indexInfo? commonIndex.id = some ⟨13, "ix", 20, [⟨12, "b", "long"⟩, ⟨11, "a", "string"⟩]⟩ := by
    rw [SchemaTransaction.indexInfo?, hindexes]
    exact SortedMap.get?_insert_self _ _ _
  exact ⟨validate_commonSchema, by decide, by decide, x, hx, _, hentry, by decide⟩

end Catalog

end Keyspace
