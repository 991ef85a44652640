import Keyspace.Proofs.Defaults
import Keyspace.Proofs.SortedMap
import Keyspace.Proofs.Validation
import Mathlib.Data.List.Perm.Basic

/-!
What a schema document describes. Each element of a document is told apart from how it is read: the model of a document
has just one item for each element, under the ID of the element, and so there is none for a document in which an ID comes
twice in one place.
-/
namespace Keyspace.Schema

/-! ## Elements one by one -/

/-- A field has the name that its element gives it, or else that of its place, and the settings of the element. -/
structure SimpleElement.Describes (e : SimpleElement) (place : Option String) (f : SimpleField) : Prop where
  name : e.name.or place = some f.name
  id : f.id = e.id
  indexed : f.indexed = e.indexed
  kind : f.kind = e.kind

inductive FieldElement.Describes : FieldElement → Field → Prop where
  | simple {e f} (h : e.Describes none f) : Describes (.simple e) (.simple f)
  | counter (name : String) (id : StorageId) : Describes (.counter name id) (.counter ⟨name, id⟩)
  | list {name id e f} (h : e.Describes (some "element") f) :
    Describes (.list name id e) (.complex ⟨name, id, .list, [f]⟩)
  | set {name id e f} (h : e.Describes (some "element") f) :
    Describes (.set name id e) (.complex ⟨name, id, .set, [f]⟩)
  | map {name id k v key value} (hkey : k.Describes (some "key") key) (hvalue : v.Describes (some "value") value) :
    Describes (.map name id k v) (.complex ⟨name, id, .map, [key, value]⟩)

/-- A map has just one item for each element of a list, under the ID of the item. -/
def Collects {ε α : Type} (id : α → StorageId) (describes : ε → α → Prop) (es : List ε) (m : SortedMap StorageId α) :
    Prop :=
  ∃ as, List.Forall₂ describes es as ∧ (as.map fun a => (id a, a)).Perm m.toList

structure ObjectTypeElement.Describes (e : ObjectTypeElement) (t : ObjectType) : Prop where
  name : t.name = e.name
  id : t.id = e.id
  fields : Collects Field.id FieldElement.Describes e.fields t.fields
  indexes : Collects CompositeIndex.id Eq (e.indexes.getD []) t.indexes

def Document.listed (d : Document) : List ObjectTypeElement := d.objectTypes.getD [] ++ d.objects.getD []

structure Document.Permitted (d : Document) : Prop where
  version : d.version ≤ 2
  first : d.version = 0 → d.objectTypes = none
  later : d.version ≠ 0 → d.objects = none
  indexes : ∀ e ∈ d.listed, e.indexes ≠ none → d.version = 2

def Document.Describes (d : Document) (m : Model) : Prop :=
  Collects ObjectType.id ObjectTypeElement.Describes d.listed m.objectTypes

def FieldElement.id : FieldElement → StorageId
  | simple e => e.id
  | counter _ id => id
  | list _ id _ => id
  | set _ id _ => id
  | map _ id _ _ => id

/-- An ID comes twice among the object types, or among the fields or the indexes of one of them. -/
def Document.Repeats (d : Document) : Prop :=
  ¬(d.listed.map (·.id)).Nodup ∨
    ∃ e ∈ d.listed, ¬(e.fields.map FieldElement.id).Nodup ∨ ¬((e.indexes.getD []).map (·.id)).Nodup

/-! ## Items under their IDs -/

section

variable {σ ε α : Type} {id : α → StorageId} {describes : ε → α → Prop} {add : σ → ε → Except SchemaError σ}
  (mk : SortedMap StorageId α → σ) {es : List ε} {s : σ}

/-- Items can be added to a map just if they bring IDs that are new, each of them once; the map then has them beside
what it had. -/
theorem foldlM_add_eq_ok_iff_append (hadd : ∀ e ∈ es, ∀ n s, add (mk n) e = .ok s ↔
      ∃ a, describes e a ∧ n.get? (id a) = none ∧ s = mk (n.insert (id a) a)) (n : SortedMap StorageId α) :
    es.foldlM add (mk n) = .ok s ↔ ∃ as m, List.Forall₂ describes es as ∧
      (n.toList ++ as.map fun a => (id a, a)).Perm m.toList ∧ s = mk m := by
  induction es generalizing n with
  | nil =>
    constructor
    · intro h
      cases h
      exact ⟨[], n, .nil, by rw [List.map_nil, List.append_nil], rfl⟩
    · rintro ⟨as, m, hnil, hperm, rfl⟩
      cases hnil
      rw [List.map_nil, List.append_nil] at hperm
      rw [SortedMap.ext_perm hperm]
      rfl
  | cons e es ih =>
    obtain ⟨he, hes⟩ := List.forall_mem_cons.1 hadd
    constructor
    · intro h
      obtain ⟨t, ht, hrest⟩ := exists_of_bind_eq_ok h
      obtain ⟨a, ha, hfresh, rfl⟩ := (he n t).1 ht
      obtain ⟨as, m, has, hperm, rfl⟩ := (ih hes _).1 hrest
      refine ⟨a :: as, m, .cons ha has, List.Perm.trans ?_ hperm, rfl⟩
      exact List.perm_middle.trans ((SortedMap.toList_insert_perm hfresh).symm.append_right _)
    · rintro ⟨_, m, hall, hperm, rfl⟩
      obtain ⟨a, as, ha, has, rfl⟩ := List.forall₂_cons_left_iff.1 hall
      -- The ID of an item is free since it comes only once in the map that is made up in the end.
      have hdistinct : (n.toList ++ (id a, a) :: as.map fun a => (id a, a)).Pairwise fun x y => x.1 ≠ y.1 :=
        (hperm.pairwise_iff fun hxy hyx => hxy hyx.symm).2 m.distinct
      have hfresh : n.get? (id a) = none := SortedMap.get?_eq_none_iff.2 fun x hx =>
        (List.pairwise_append.1 hdistinct).2.2 x hx _ List.mem_cons_self
      rw [List.foldlM_cons, (he n _).2 ⟨a, ha, hfresh, rfl⟩, ok_bind]
      refine (ih hes _).2 ⟨as, m, has, List.Perm.trans ?_ hperm, rfl⟩
      exact ((SortedMap.toList_insert_perm hfresh).append_right _).trans List.perm_middle.symm

/-- Adding items one by one, each under an ID that is free, makes up the map that has just these items. -/
theorem foldlM_add_eq_ok_iff (hadd : ∀ e ∈ es, ∀ n s, add (mk n) e = .ok s ↔
      ∃ a, describes e a ∧ n.get? (id a) = none ∧ s = mk (n.insert (id a) a)) :
    es.foldlM add (mk .empty) = .ok s ↔ ∃ m, Collects id describes es m ∧ s = mk m := by
  rw [foldlM_add_eq_ok_iff_append mk hadd]
  constructor
  · rintro ⟨as, m, has, hperm, rfl⟩
    exact ⟨m, ⟨as, has, hperm⟩, rfl⟩
  · rintro ⟨m, ⟨as, has, hperm⟩, rfl⟩
    exact ⟨as, m, has, hperm, rfl⟩

/-- Elements that are collected have different IDs. -/
theorem Collects.nodup {key : ε → StorageId} {m : SortedMap StorageId α} (h : Collects id describes es m)
    (hkey : ∀ {e a}, describes e a → id a = key e) : (es.map key).Nodup := by
  obtain ⟨as, has, hperm⟩ := h
  have hkeys : es.map key = (as.map fun a => (id a, a)).map (·.1) := by
    clear hperm
    induction has with
    | nil => rfl
    | cons ha _ ih => exact List.cons_eq_cons.2 ⟨(hkey ha).symm, ih⟩
  rw [hkeys]
  exact (hperm.map _).nodup_iff.2 m.nodup_keys

/-- What elements describe may be told in another way. -/
theorem Collects.imp {describes' : ε → α → Prop} {m : SortedMap StorageId α} (h : Collects id describes es m)
    (himp : ∀ e ∈ es, ∀ a ∈ m.values, describes e a → describes' e a) : Collects id describes' es m := by
  obtain ⟨as, has, hperm⟩ := h
  have hvalues : ∀ a ∈ as, a ∈ m.values := fun a ha =>
    List.mem_map.2 ⟨(id a, a), hperm.mem_iff.1 (List.mem_map_of_mem ha), rfl⟩
  refine ⟨as, ?_, hperm⟩
  clear hperm
  induction has with
  | nil => exact .nil
  | cons ha _ ih =>
    obtain ⟨he, hes⟩ := List.forall_mem_cons.1 himp
    obtain ⟨hvalue, hvalues⟩ := List.forall_mem_cons.1 hvalues
    exact .cons (he _ hvalue ha) (ih hes hvalues)

/-- The order of the elements makes no difference. -/
theorem Collects.perm {es' : List ε} {m : SortedMap StorageId α} (h : Collects id describes es m)
    (hes : es.Perm es') : Collects id describes es' m := by
  obtain ⟨as, has, hperm⟩ := h
  obtain ⟨bs, hbs, hasbs⟩ := List.perm_comp_forall₂ hes.symm has
  exact ⟨bs, hbs, (hasbs.map _).trans hperm⟩

theorem collects_map_iff {β : Type} {element : β → ε} {bs : List β} {m : SortedMap StorageId α} :
    Collects id describes (bs.map element) m ↔ Collects id (fun b => describes (element b)) bs m := by
  simp only [Collects, List.forall₂_map_left_iff]

/-- Each element that is collected describes an item. -/
theorem Collects.exists_item {m : SortedMap StorageId α} (h : Collects id describes es m) :
    ∀ e ∈ es, ∃ a, describes e a := by
  obtain ⟨as, has, -⟩ := h
  induction has with
  | nil => exact nofun
  | cons ha _ ih => exact List.forall_mem_cons.2 ⟨⟨_, ha⟩, ih⟩

section

variable {describes : α → α → Prop} {m n : SortedMap StorageId α} (hkeys : ∀ e ∈ m.toList, e.1 = id e.2)

include hkeys

theorem map_values_eq_toList : (m.values.map fun a => (id a, a)) = m.toList := by
  rw [SortedMap.values, List.map_map]
  refine (List.map_congr_left fun e he => ?_).trans (List.map_id _)
  exact Prod.ext (hkeys e he).symm rfl

/-- A map under the IDs of its items has these items. -/
theorem Collects.of_values (h : ∀ a ∈ m.values, describes a a) : Collects id describes m.values m :=
  ⟨m.values, List.forall₂_same.2 h, by rw [map_values_eq_toList hkeys]⟩

/-- Maps with the same items, each under its own ID, are the same. -/
theorem Collects.eq_of_values (h : Collects id describes m.values n)
    (heq : ∀ a ∈ m.values, ∀ b ∈ n.values, describes a b → a = b) : m = n := by
  obtain ⟨as, has, hperm⟩ := h.imp heq
  rw [List.forall₂_eq_eq_eq] at has
  obtain rfl := has
  rw [map_values_eq_toList hkeys] at hperm
  exact SortedMap.ext_perm hperm

end

end

/-! ## Reading elements -/

/-- With a place, an element describes just one field. -/
theorem SimpleElement.describes_iff {e : SimpleElement} {place : String} {f : SimpleField} :
    e.Describes (some place) f ↔ e.toField place = f := by
  obtain ⟨name, id, indexed, kind⟩ := e
  constructor
  · rintro ⟨hname, hid, hindexed, hkind⟩
    have hname : name.getD place = f.name := by cases name <;> exact Option.some.inj hname
    obtain ⟨name', id', indexed', kind'⟩ := f
    cases hname
    cases hid
    cases hindexed
    cases hkind
    rfl
  · rintro rfl
    cases name <;> exact ⟨rfl, rfl, rfl, rfl⟩

/-- An element becomes a field just if it describes one, and becomes that. -/
theorem FieldElement.toField_eq_ok_iff {e : FieldElement} {f : Field} : e.toField = .ok f ↔ e.Describes f := by
  constructor
  · intro h
    cases e with
    | simple e =>
      obtain ⟨name, id, indexed, kind⟩ := e
      cases name with
      | none => cases h
      | some name =>
        cases h
        exact .simple ⟨rfl, rfl, rfl, rfl⟩
    | counter name id =>
      cases h
      exact .counter name id
    | list name id e =>
      cases h
      exact .list (SimpleElement.describes_iff.2 rfl)
    | set name id e =>
      cases h
      exact .set (SimpleElement.describes_iff.2 rfl)
    | map name id k v =>
      cases h
      exact .map (SimpleElement.describes_iff.2 rfl) (SimpleElement.describes_iff.2 rfl)
  · rintro (@⟨⟨name, id, indexed, kind⟩, f, h⟩ | _ | h | h | ⟨hkey, hvalue⟩)
    · obtain rfl : name = some f.name := (Option.or_none).symm.trans h.name
      have hfield : SimpleElement.toField ⟨some f.name, id, indexed, kind⟩ "" = f :=
        SimpleElement.describes_iff.1 ⟨rfl, h.id, h.indexed, h.kind⟩
      exact congrArg (fun f => Except.ok (Field.simple f)) hfield
    · rfl
    · rw [toField, SimpleElement.describes_iff.1 h]
    · rw [toField, SimpleElement.describes_iff.1 h]
    · rw [toField, SimpleElement.describes_iff.1 hkey, SimpleElement.describes_iff.1 hvalue]

namespace ObjectTypeElement

/-- A field is added just if its ID is new. -/
theorem addField_eq_ok_iff {t s : ObjectType} {e : FieldElement} :
    addField t e = .ok s ↔ ∃ f, e.Describes f ∧ t.fields.get? f.id = none ∧ s = t.addField f := by
  constructor
  · intro h
    obtain ⟨f, hf, h⟩ := exists_of_bind_eq_ok h
    obtain ⟨hfresh, hs⟩ := guard_eq_ok_iff.1 h
    cases hs
    exact ⟨f, FieldElement.toField_eq_ok_iff.1 hf, SortedMap.contains_eq_false_iff.1 (Bool.eq_false_iff.2 hfresh), rfl⟩
  · rintro ⟨f, hf, hfresh, rfl⟩
    rw [addField, FieldElement.toField_eq_ok_iff.2 hf, ok_bind]
    exact guard_eq_ok_iff.2 ⟨Bool.eq_false_iff.1 (SortedMap.contains_eq_false_iff.2 hfresh), rfl⟩

theorem addIndex_eq_ok_iff {t s : ObjectType} {i : CompositeIndex} :
    addIndex t i = .ok s ↔ t.indexes.get? i.id = none ∧ s = t.addIndex i := by
  rw [addIndex, ← SortedMap.contains_eq_false_iff]
  cases t.indexes.contains i.id with
  | true => exact iff_of_false nofun nofun
  | false =>
    rw [if_neg Bool.false_ne_true, Except.ok.injEq, and_iff_right rfl, eq_comm]

variable {version : Nat} {e : ObjectTypeElement} {t : ObjectType}

theorem foldlM_addField_eq_ok_iff {fs : List FieldElement} {name : String} {id : StorageId} :
    fs.foldlM addField (.create name id) = .ok t ↔
      ∃ fields, Collects Field.id FieldElement.Describes fs fields ∧ t = ⟨name, id, fields, .empty⟩ :=
  foldlM_add_eq_ok_iff (fun fields => (⟨name, id, fields, .empty⟩ : ObjectType)) fun _ _ _ _ => addField_eq_ok_iff

theorem foldlM_addIndex_eq_ok_iff {is : List CompositeIndex} {name : String} {id : StorageId}
    {fields : SortedMap StorageId Field} :
    is.foldlM addIndex ⟨name, id, fields, .empty⟩ = .ok t ↔
      ∃ indexes, Collects CompositeIndex.id Eq is indexes ∧ t = ⟨name, id, fields, indexes⟩ :=
  foldlM_add_eq_ok_iff (fun indexes => (⟨name, id, fields, indexes⟩ : ObjectType)) fun i _ n s => by
    rw [addIndex_eq_ok_iff, exists_eq_left']
    rfl

/-- An element is read as the object type that it describes, if its version may have the indexes that it has. -/
theorem toObjectType_eq_ok_iff : e.toObjectType version = .ok t ↔ (e.indexes ≠ none → 2 ≤ version) ∧ e.Describes t := by
  obtain ⟨name, id, fs, is⟩ := e
  have hnone : Collects CompositeIndex.id Eq [] .empty := ⟨[], .nil, .refl _⟩
  have hempty : ∀ {indexes}, Collects CompositeIndex.id Eq [] indexes → indexes = .empty := by
    rintro indexes ⟨is, hnil, hperm⟩
    cases hnil
    exact SortedMap.ext_perm hperm.symm
  constructor
  · intro h
    obtain ⟨s, hs, h⟩ := exists_of_bind_eq_ok h
    obtain ⟨fields, hfields, rfl⟩ := foldlM_addField_eq_ok_iff.1 hs
    cases is with
    | none =>
      cases h
      exact ⟨fun h => absurd rfl h, rfl, rfl, hfields, hnone⟩
    | some is =>
      obtain ⟨hversion, h⟩ := guard_eq_ok_iff.1 h
      obtain ⟨indexes, hindexes, rfl⟩ := foldlM_addIndex_eq_ok_iff.1 h
      exact ⟨fun _ => Nat.le_of_not_lt hversion, rfl, rfl, hfields, hindexes⟩
  · obtain ⟨name', id', fields, indexes⟩ := t
    rintro ⟨hversion, rfl, rfl, hfields, hindexes⟩
    rw [toObjectType, foldlM_addField_eq_ok_iff.2 ⟨fields, hfields, rfl⟩, ok_bind]
    cases is with
    | none =>
      obtain rfl : indexes = .empty := hempty hindexes
      rfl
    | some is =>
      exact guard_eq_ok_iff.2 ⟨Nat.not_lt.2 (hversion nofun), foldlM_addIndex_eq_ok_iff.2 ⟨indexes, hindexes, rfl⟩⟩

end ObjectTypeElement

namespace Document

variable {d : Document} {m : Model}

theorem elements_eq_ok_iff {es : List ObjectTypeElement} : d.elements = .ok es ↔
    (d.version ≤ 2 ∧ (d.version = 0 → d.objectTypes = none) ∧ (d.version ≠ 0 → d.objects = none)) ∧ es = d.listed := by
  obtain ⟨version, types, objects⟩ := d
  match version with
  | 0 => cases types <;> simp [elements, listed, eq_comm]
  | 1 | 2 => cases objects <;> simp [elements, listed, eq_comm]
  | version + 3 => simp [elements]

/-- An object type is added just if the version has room for its indexes and its ID is new. -/
theorem addObjectType_eq_ok_iff {version : Nat} {s : Model} {e : ObjectTypeElement} :
    addObjectType version m e = .ok s ↔
      ∃ t, ((e.indexes ≠ none → 2 ≤ version) ∧ e.Describes t) ∧ m.objectTypes.get? t.id = none ∧ s = m.add t := by
  constructor
  · intro h
    obtain ⟨t, ht, h⟩ := exists_of_bind_eq_ok h
    split at h
    · cases h
    · next hfresh =>
      cases h
      exact ⟨t, ObjectTypeElement.toObjectType_eq_ok_iff.1 ht, hfresh, rfl⟩
  · rintro ⟨t, ht, hfresh, rfl⟩
    have hfresh : m.objectType? t.id = none := hfresh
    rw [addObjectType, ObjectTypeElement.toObjectType_eq_ok_iff.2 ht, ok_bind, hfresh]
    rfl

/-- A document that is permitted is read as the model that it describes, and no other document is read. -/
theorem toModel_eq_ok_iff : d.toModel = .ok m ↔ d.Permitted ∧ d.Describes m := by
  have hrun : d.listed.foldlM (addObjectType d.version) .empty = .ok m ↔
      ∃ objectTypes, Collects ObjectType.id
        (fun e t => (e.indexes ≠ none → 2 ≤ d.version) ∧ ObjectTypeElement.Describes e t) d.listed objectTypes ∧
        m = ⟨objectTypes⟩ :=
    foldlM_add_eq_ok_iff Model.mk fun _ _ _ _ => addObjectType_eq_ok_iff
  constructor
  · intro h
    obtain ⟨es, hes, h⟩ := exists_of_bind_eq_ok h
    obtain ⟨⟨hversion, hfirst, hlater⟩, rfl⟩ := elements_eq_ok_iff.1 hes
    obtain ⟨objectTypes, hall, rfl⟩ := hrun.1 h
    refine ⟨⟨hversion, hfirst, hlater, fun e he hindexes => ?_⟩, hall.imp fun _ _ _ _ h => h.2⟩
    obtain ⟨t, ht, -⟩ := hall.exists_item e he
    exact Nat.le_antisymm hversion (ht hindexes)
  · rintro ⟨hpermitted, hdescribes⟩
    have helements := elements_eq_ok_iff.2 ⟨⟨hpermitted.version, hpermitted.first, hpermitted.later⟩, rfl⟩
    rw [toModel, helements, ok_bind, hrun]
    refine ⟨m.objectTypes, hdescribes.imp fun e he t _ ht => ⟨fun hindexes => ?_, ht⟩, rfl⟩
    exact Nat.le_of_eq (hpermitted.indexes e he hindexes).symm

/-- What a document describes has no ID twice in one place. -/
theorem Describes.not_repeats (h : d.Describes m) : ¬d.Repeats := by
  rintro (hrepeats | ⟨e, he, hrepeats⟩)
  · exact hrepeats (h.nodup fun ht => ht.id)
  · obtain ⟨t, ht⟩ := h.exists_item e he
    rcases hrepeats with hrepeats | hrepeats
    · refine hrepeats (ht.fields.nodup fun hf => ?_)
      cases hf with
      | simple hf => exact hf.id
      | _ => rfl
    · exact hrepeats (ht.indexes.nodup fun hi => congrArg CompositeIndex.id hi.symm)

/-- Reading a document loses and merges nothing. Elements have the settings that are written, with defaults for those
that are not, the model has just one item for each element, and no document that repeats an ID is read. -/
theorem toModel_exact :
    (∀ v d, ofJson? v = some d → Spelled v d) ∧
    (∀ (d : Document) (m : Model), d.toModel = .ok m ↔ d.Permitted ∧ d.Describes m) ∧
    (∀ d : Document, d.Repeats → ∃ why, d.toModel = .error why) := by
  refine ⟨fun _ _ => spelled_of_ofJson?, fun _ _ => toModel_eq_ok_iff, fun d hrepeats => ?_⟩
  cases hmodel : d.toModel with
  | error why => exact ⟨why, rfl⟩
  | ok m => exact absurd hrepeats (toModel_eq_ok_iff.1 hmodel).2.not_repeats

/-- A document of the first version, with a map whose sub-fields have no names, and one that lists the same type again. -/
theorem toModel_exact_lexicon :
    let value (id : Int) (type : String) : Json :=
      .object [("SimpleField", .object [("storageId", .integer id), ("type", .string type)])]
    let senses : Json := .object [("MapField", .object [("name", .string "senses"), ("storageId", .integer 2),
      ("key", value 3 "Int"), ("value", value 4 "String")])]
    let word : Json := .object [("storageId", .integer 1), ("name", .string "Word"), ("fields", .array [senses])]
    let v : Json := .object [("SchemaModel", .object [("Object", .array [word])])]
    let e : ObjectTypeElement :=
      ⟨"Word", 1, [.map "senses" 2 ⟨none, 3, false, .value "Int" 0⟩ ⟨none, 4, false, .value "String" 0⟩], none⟩
    let t : ObjectType := (ObjectType.create "Word" 1).addField (.complex ⟨"senses", 2, .map,
      [⟨"key", 3, false, .value "Int" 0⟩, ⟨"value", 4, false, .value "String" 0⟩]⟩)
    (ofJson? v = some ⟨0, none, some [e]⟩ ∧ Spelled v ⟨0, none, some [e]⟩) ∧
    ((⟨0, none, some [e]⟩ : Document).toModel = .ok (Model.empty.add t) ∧
      (⟨0, none, some [e]⟩ : Document).Describes (Model.empty.add t)) ∧
    ((⟨0, none, some [e, e]⟩ : Document).Repeats ∧ ∃ why, (⟨0, none, some [e, e]⟩ : Document).toModel = .error why) := by
  intro value senses word v e t
  obtain ⟨hspelled, hmodel, hrejected⟩ := toModel_exact
  have hread : ofJson? v = some ⟨0, none, some [e]⟩ := by decide +kernel
  have hok : (⟨0, none, some [e]⟩ : Document).toModel = .ok (Model.empty.add t) := by decide +kernel
  have hrepeats : (⟨0, none, some [e, e]⟩ : Document).Repeats := .inl (by decide)
  exact ⟨⟨hread, hspelled _ _ hread⟩, ⟨hok, ((hmodel _ _).1 hok).2⟩, hrepeats, hrejected _ hrepeats⟩

end Document

end Keyspace.Schema
