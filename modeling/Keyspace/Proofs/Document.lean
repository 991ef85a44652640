import Keyspace.Proofs.Elements
import Keyspace.Proofs.Format
import Keyspace.Proofs.WellFormed

/-!
What becomes of a model that is written and read again. A document tells neither the keys of items nor the names of
sub-fields, which reading gives anew: an item gets its own ID as key, a sub-field the name of its place. In all else
that fits a document nothing is mended. So a valid model is the model of its own document, and a broken one is read, if
at all, as the valid model that is the same but for these.
-/
namespace Keyspace.Schema

/-! ## What reading settles -/

structure SimpleField.Alike (f g : SimpleField) : Prop where
  id : f.id = g.id
  indexed : f.indexed = g.indexed
  kind : f.kind = g.kind

/-- A collection has no more sub-fields than it has places for. -/
def Field.Fits : Field → Prop
  | complex f => f.subFields.length ≤ f.collection.subFieldNames.length
  | _ => True

def Model.Fits (m : Model) : Prop := ∀ t ∈ m.objectTypes.values, ∀ f ∈ t.fields.values, f.Fits

/-- A field is settled as one that is the same, but for the names of its sub-fields if they fit. -/
inductive Field.Settles : Field → Field → Prop where
  | simple (f : SimpleField) : Settles (.simple f) (.simple f)
  | counter (f : CounterField) : Settles (.counter f) (.counter f)
  | complex {name id collection subFields settled}
    (h : Fits (.complex ⟨name, id, collection, subFields⟩) → List.Forall₂ SimpleField.Alike subFields settled) :
    Settles (.complex ⟨name, id, collection, subFields⟩) (.complex ⟨name, id, collection, settled⟩)

structure ObjectType.Settles (t u : ObjectType) : Prop where
  name : t.name = u.name
  id : t.id = u.id
  fields : Collects Field.id Field.Settles t.fields.values u.fields
  indexes : Collects CompositeIndex.id Eq t.indexes.values u.indexes

def Model.Settles (m n : Model) : Prop :=
  Collects ObjectType.id ObjectType.Settles m.objectTypes.values n.objectTypes

/-- The sub-fields of a collection have the names of their places, which need not all be taken. -/
def Field.Placed : Field → Prop
  | complex f => f.subFields.map (·.name) <+: f.collection.subFieldNames
  | _ => True

/-- All items are kept under their own IDs, and sub-fields have the names of their places. -/
structure ObjectType.Placed (t : ObjectType) : Prop where
  fieldKeys : ∀ e ∈ t.fields.toList, e.1 = e.2.id
  fields : ∀ f ∈ t.fields.values, f.Placed
  indexKeys : ∀ e ∈ t.indexes.toList, e.1 = e.2.id

structure Model.Placed (m : Model) : Prop where
  keys : ∀ e ∈ m.objectTypes.toList, e.1 = e.2.id
  objectTypes : ∀ t ∈ m.objectTypes.values, t.Placed

/-! ## Fields -/

theorem eq_singleton_of_getElem? {α : Type} {as : List α} {a : α} (h : as[0]? = some a) (hlength : as.length ≤ 1) :
    as = [a] := by
  cases as with
  | nil => cases h
  | cons b bs =>
    cases h
    rw [List.eq_nil_of_length_eq_zero (Nat.le_zero.1 (Nat.le_of_succ_le_succ hlength))]

theorem eq_pair_of_getElem? {α : Type} {as : List α} {a b : α} (ha : as[0]? = some a) (hb : as[1]? = some b)
    (hlength : as.length ≤ 2) : as = [a, b] := by
  cases as with
  | nil => cases ha
  | cons c as =>
    cases ha
    rw [eq_singleton_of_getElem? hb (Nat.le_of_succ_le_succ hlength)]

/-- The element at a place describes the sub-field there, and where there is none it describes nothing that is valid. -/
theorem ComplexField.elementAt_describes_iff {f : ComplexField} {place : Nat} {name : String} {s : SimpleField}
    (hs : s.WellFormed) :
    (f.elementAt place).Describes (some name) s ↔ s.name = name ∧ ∃ r, f.subFields[place]? = some r ∧ r.Alike s := by
  rw [elementAt]
  cases f.subFields[place]? with
  | none =>
    -- The placeholder has an ID that no sub-field may have.
    refine iff_of_false (fun h => ?_) nofun
    have hzero : s.id = 0 := h.id
    have hid := hs.id.1
    rw [hzero] at hid
    exact absurd hid (by decide)
  | some r =>
    constructor
    · intro h
      exact ⟨(Option.some.inj h.name).symm, r, rfl, h.id.symm, h.indexed.symm, h.kind.symm⟩
    · rintro ⟨rfl, _, ⟨⟩, h⟩
      exact ⟨rfl, h.id.symm, h.indexed.symm, h.kind.symm⟩

/-- Where there is no other sub-field, the element at the first place tells all. -/
theorem ComplexField.alike_of_describes {f : ComplexField} {name : String} {s : SimpleField} (hs : s.WellFormed)
    (h : (f.elementAt 0).Describes (some name) s) (hlength : f.subFields.length ≤ 1) :
    List.Forall₂ SimpleField.Alike f.subFields [s] := by
  obtain ⟨-, r, hr, halike⟩ := (elementAt_describes_iff hs).1 h
  rw [eq_singleton_of_getElem? hr hlength]
  exact .cons halike .nil

theorem ComplexField.describes_of_alike {f : ComplexField} {s : SimpleField} (hs : s.WellFormed)
    (h : List.Forall₂ SimpleField.Alike f.subFields [s]) : (f.elementAt 0).Describes (some s.name) s := by
  obtain ⟨r, _, hr, ⟨⟩, hsubFields⟩ := List.forall₂_cons_right_iff.1 h
  exact (elementAt_describes_iff hs).2 ⟨rfl, r, by rw [hsubFields]; rfl, hr⟩

variable {f g : Field} {t u : ObjectType} {m n : Model}

/-- What the element of a field describes, if it is valid, is the field settled. -/
theorem Field.settles_of_describes (hg : g.WellFormed) (h : f.toElement.Describes g) : f.Settles g := by
  cases f with
  | simple f =>
    obtain ⟨name, id, indexed, kind⟩ := f
    cases h with | @simple _ g h =>
    obtain ⟨name', id', indexed', kind'⟩ := g
    obtain ⟨⟨⟩, ⟨⟩, ⟨⟩, ⟨⟩⟩ := h
    exact .simple _
  | counter f =>
    cases h
    exact .counter f
  | complex f =>
    obtain ⟨name, id, collection, subFields⟩ := f
    cases collection with
    | list =>
      cases h with | list h =>
      obtain ⟨hs, -⟩ := hg.subFields _ List.mem_cons_self
      exact .complex fun hfits => ComplexField.alike_of_describes hs h hfits
    | set =>
      cases h with | set h =>
      obtain ⟨hs, -⟩ := hg.subFields _ List.mem_cons_self
      exact .complex fun hfits => ComplexField.alike_of_describes hs h hfits
    | map =>
      cases h with | map hkey hvalue =>
      obtain ⟨⟨hk, -⟩, hrest⟩ := List.forall_mem_cons.1 hg.subFields
      obtain ⟨hv, -⟩ := hrest _ List.mem_cons_self
      obtain ⟨-, r, hr, hrk⟩ := (ComplexField.elementAt_describes_iff hk).1 hkey
      obtain ⟨-, q, hq, hqv⟩ := (ComplexField.elementAt_describes_iff hv).1 hvalue
      refine .complex fun hfits => ?_
      obtain rfl : subFields = [r, q] := eq_pair_of_getElem? hr hq hfits
      exact .cons hrk (.cons hqv .nil)

/-- A field that fits is written as what it may settle as, if this is valid. -/
theorem Field.Settles.describes (hf : f.Fits) (hg : g.WellFormed) (h : f.Settles g) : f.toElement.Describes g := by
  cases h with
  | simple f => exact .simple ⟨Option.or_none, rfl, rfl, rfl⟩
  | counter f => exact .counter f.name f.id
  | @complex name id collection subFields settled h =>
    have hnames := hg.subFieldNames
    have hsub : ∀ s ∈ settled, s.WellFormed := fun s hs => (hg.subFields s hs).1
    have halike := h hf
    cases collection with
    | list =>
      obtain ⟨s, rfl, hname⟩ := List.map_eq_singleton_iff.1 hnames
      exact .list (hname ▸ ComplexField.describes_of_alike (hsub s List.mem_cons_self) halike)
    | set =>
      obtain ⟨s, rfl, hname⟩ := List.map_eq_singleton_iff.1 hnames
      exact .set (hname ▸ ComplexField.describes_of_alike (hsub s List.mem_cons_self) halike)
    | map =>
      obtain ⟨k, vs, rfl, hkey, hvs⟩ := List.map_eq_cons_iff.1 hnames
      obtain ⟨v, rfl, hvalue⟩ := List.map_eq_singleton_iff.1 hvs
      obtain ⟨r, _, hr, hrest, rfl⟩ := List.forall₂_cons_right_iff.1 halike
      obtain ⟨q, _, hq, ⟨⟩, rfl⟩ := List.forall₂_cons_right_iff.1 hrest
      obtain ⟨hk, hv⟩ := List.forall_mem_cons.1 hsub
      exact .map ((ComplexField.elementAt_describes_iff hk).2 ⟨hkey, r, rfl, hr⟩)
        ((ComplexField.elementAt_describes_iff (hv v List.mem_cons_self)).2 ⟨hvalue, q, rfl, hq⟩)

/-- Sub-fields that are alike and have the same names are the same. -/
theorem SimpleField.eq_of_alike {fs gs : List SimpleField} (h : List.Forall₂ Alike fs gs)
    (hnames : fs.map (·.name) = gs.map (·.name)) : fs = gs := by
  induction h with
  | nil => rfl
  | @cons f g _ _ hfg _ ih =>
    obtain ⟨hname, htail⟩ := List.cons_eq_cons.1 hnames
    obtain ⟨name, id, indexed, kind⟩ := f
    obtain ⟨name', id', indexed', kind'⟩ := g
    obtain ⟨⟨⟩, ⟨⟩, ⟨⟩⟩ := hfg
    obtain rfl : name = name' := hname
    rw [ih htail]

/-- With the names of their places, and so none too many, sub-fields settle as they are. -/
theorem Field.Settles.eq_of_placed (hf : f.Placed) (hg : g.WellFormed) (h : f.Settles g) : f = g := by
  cases h with
  | @complex name id collection subFields settled h =>
    have hplaced : subFields.map (·.name) <+: collection.subFieldNames := hf
    have hlength := hplaced.length_le
    rw [List.length_map] at hlength
    have halike := h hlength
    -- What is settled takes all places, and has as many sub-fields as there were.
    have hnames : settled.map (·.name) = collection.subFieldNames := hg.subFieldNames
    have hsame : (subFields.map (·.name)).length = collection.subFieldNames.length := by
      rw [← hnames, List.length_map, List.length_map, halike.length_eq]
    rw [SimpleField.eq_of_alike halike ((hplaced.eq_of_length hsame).trans hnames.symm)]
  | _ => rfl

theorem Field.WellFormed.fits (hf : f.WellFormed) : f.Fits := by
  cases f with
  | complex f => exact Nat.le_of_eq (ComplexField.WellFormed.length_subFields hf)
  | _ => trivial

theorem Field.settles_self : f.Settles f := by
  cases f with
  | simple f => exact .simple f
  | counter f => exact .counter f
  | complex f => exact .complex fun _ => List.forall₂_same.2 fun _ _ => ⟨rfl, rfl, rfl⟩

/-! ## Object types -/

theorem ObjectType.toElement_indexes : t.toElement.indexes.getD [] = t.indexes.values := by
  obtain ⟨name, id, fields, ⟨indexes, hindexes⟩⟩ := t
  cases indexes <;> rfl

theorem ObjectType.settles_of_describes (hu : u.WellFormed) (h : t.toElement.Describes u) : t.Settles u := by
  refine ⟨h.name.symm, h.id.symm, ?_, ?_⟩
  · exact (collects_map_iff.1 h.fields).imp fun f _ g hg => Field.settles_of_describes (hu.fields g hg)
  · rw [← toElement_indexes]
    exact h.indexes

theorem ObjectType.Settles.describes (ht : ∀ f ∈ t.fields.values, f.Fits) (hu : u.WellFormed) (h : t.Settles u) :
    t.toElement.Describes u := by
  refine ⟨h.name.symm, h.id.symm, ?_, ?_⟩
  · exact collects_map_iff.2 (h.fields.imp fun f hf g hg => Field.Settles.describes (ht f hf) (hu.fields g hg))
  · rw [toElement_indexes]
    exact h.indexes

/-- An object type whose items are in place is settled as itself. -/
theorem ObjectType.Settles.eq_of_placed (ht : t.Placed) (hu : u.WellFormed) (h : t.Settles u) : t = u := by
  have hfields : t.fields = u.fields := Collects.eq_of_values ht.fieldKeys h.fields fun f hf g hg =>
    Field.Settles.eq_of_placed (ht.fields f hf) (hu.fields g hg)
  have hindexes : t.indexes = u.indexes := Collects.eq_of_values ht.indexKeys h.indexes fun _ _ _ _ h => h
  obtain ⟨name, id, fields, indexes⟩ := t
  obtain ⟨name', id', fields', indexes'⟩ := u
  obtain rfl : name = name' := h.name
  obtain rfl : id = id' := h.id
  obtain rfl : fields = fields' := hfields
  obtain rfl : indexes = indexes' := hindexes
  rfl

/-! ## Models -/

namespace Model

theorem listed_toDocument :
    m.toDocument.listed = (m.objectTypes.values.mergeSort ObjectType.listedBefore).map ObjectType.toElement :=
  List.append_nil _

theorem permitted_toDocument : m.toDocument.Permitted := ⟨Nat.le_refl 2, nofun, fun _ => rfl, fun _ _ _ => rfl⟩

/-- The model that comes back is the valid one that the document describes. -/
theorem ofBytes_toBytes_eq_ok_iff : ofBytes m.toBytes = .ok n ↔ m.toDocument.Describes n ∧ n.validate = .ok () := by
  have hmodel : m.toDocument.toModel = .ok n ↔ m.toDocument.Describes n :=
    Document.toModel_eq_ok_iff.trans (and_iff_right permitted_toDocument)
  rw [ofBytes, Document.ofBytes?_toBytes, ← hmodel]
  constructor
  · intro h
    obtain ⟨k, hk, h⟩ := exists_of_bind_eq_ok h
    obtain ⟨⟨⟩, hvalid, h⟩ := exists_of_bind_eq_ok h
    cases h
    exact ⟨hk, hvalid⟩
  · rintro ⟨hk, hvalid⟩
    simp only [hk, ok_bind, hvalid]
    rfl

theorem settles_of_describes (hn : n.WellFormed) (h : m.toDocument.Describes n) : m.Settles n := by
  rw [Document.Describes, listed_toDocument, collects_map_iff] at h
  exact (h.perm (List.mergeSort_perm _ _)).imp fun t _ u hu => ObjectType.settles_of_describes (hn.objectTypes u hu)

theorem Settles.describes (hm : m.Fits) (hn : n.WellFormed) (h : m.Settles n) : m.toDocument.Describes n := by
  rw [Document.Describes, listed_toDocument, collects_map_iff]
  have hdescribes := h.imp fun t ht u hu => ObjectType.Settles.describes (hm t ht) (hn.objectTypes u hu)
  exact hdescribes.perm (List.mergeSort_perm _ _).symm

theorem WellFormed.fits (hm : m.WellFormed) : m.Fits := fun t ht f hf => ((hm.objectTypes t ht).fields f hf).fits

theorem WellFormed.settles_self (hm : m.WellFormed) : m.Settles m := by
  refine .of_values hm.keys fun t ht => ⟨rfl, rfl, ?_, ?_⟩
  · exact .of_values (hm.objectTypes t ht).fieldKeys fun _ _ => Field.settles_self
  · exact .of_values (hm.objectTypes t ht).indexKeys fun _ _ => rfl

/-- A model whose items have their keys and places settles as it is. -/
theorem Settles.eq_of_placed (hm : m.Placed) (hn : n.WellFormed) (h : m.Settles n) : m = n := by
  have hobjectTypes : m.objectTypes = n.objectTypes := Collects.eq_of_values hm.keys h fun t ht u hu =>
    ObjectType.Settles.eq_of_placed (hm.objectTypes t ht) (hn.objectTypes u hu)
  obtain ⟨objectTypes⟩ := m
  obtain ⟨objectTypes'⟩ := n
  exact congrArg Model.mk hobjectTypes

theorem ofBytes_toBytes (h : m.validate = .ok ()) : ofBytes m.toBytes = .ok m := by
  have hm := wellFormed_of_validate h
  exact ofBytes_toBytes_eq_ok_iff.2 ⟨hm.settles_self.describes hm.fits hm, h⟩

end Model

/-- A model comes back from its bytes, the same in every part, just when it is valid. -/
theorem Model.ofBytes_toBytes_iff (m : Model) : ofBytes m.toBytes = .ok m ↔ m.validate = .ok () := by
  refine ⟨?_, ofBytes_toBytes⟩
  intro h
  rw [ofBytes, Document.ofBytes?_toBytes] at h
  obtain ⟨n, -, h⟩ := exists_of_bind_eq_ok h
  obtain ⟨⟨⟩, hvalid, h⟩ := exists_of_bind_eq_ok h
  cases h
  exact hvalid

namespace Model

/-- Writing mends a model in nothing but what a document does not tell. What is read back is valid and is the model that
was written, settled, which is the same model if its items had their keys and places before. And where all fits, each
valid model that the written one settles as is read back. -/
theorem ofBytes_toBytes_settles (m n : Model) :
    (ofBytes m.toBytes = .ok n → n.validate = .ok () ∧ m.Settles n ∧ (m.Placed → m = n)) ∧
    (m.Fits → n.validate = .ok () → m.Settles n → ofBytes m.toBytes = .ok n) := by
  constructor
  · intro h
    obtain ⟨hdescribes, hvalid⟩ := ofBytes_toBytes_eq_ok_iff.1 h
    have hn := wellFormed_of_validate hvalid
    have hsettles := settles_of_describes hn hdescribes
    exact ⟨hvalid, hsettles, fun hm => hsettles.eq_of_placed hm hn⟩
  · intro hm hvalid hsettles
    exact ofBytes_toBytes_eq_ok_iff.2 ⟨hsettles.describes hm (wellFormed_of_validate hvalid), hvalid⟩

/-- A sub-field gets another name, and a map that lacks one of its sub-fields does not come back. -/
theorem ofBytes_toBytes_settles_tags :
    let shoe (f : ComplexField) : ObjectType := (ObjectType.create "Shoe" 1).addField (.complex f)
    let tag (name : String) : SimpleField := ⟨name, 3, false, .value "String" 0⟩
    let sound : Model := Model.empty.add (shoe ⟨"tags", 2, .list, [tag "element"]⟩)
    let misnamed : Model := Model.empty.add (shoe ⟨"tags", 2, .list, [tag "item"]⟩)
    let lacking : Model := Model.empty.add (shoe ⟨"tags", 2, .map, [tag "key"]⟩)
    (misnamed.Settles sound ∧ ofBytes misnamed.toBytes = .ok sound) ∧ ∀ n, ofBytes lacking.toBytes ≠ .ok n := by
  intro shoe tag sound misnamed lacking
  have hsettles : misnamed.Settles sound := by
    refine ⟨sound.objectTypes.values, .cons ⟨rfl, rfl, ?_, ⟨[], .nil, .refl _⟩⟩ .nil, .refl _⟩
    refine ⟨[.complex ⟨"tags", 2, .list, [tag "element"]⟩], .cons (.complex fun _ => ?_) .nil, .refl _⟩
    exact .cons ⟨rfl, rfl, rfl⟩ .nil
  have hfits : misnamed.Fits := by
    intro t ht f hf
    cases List.mem_singleton.1 ht
    cases List.mem_singleton.1 hf
    exact Nat.le_refl 1
  refine ⟨⟨hsettles, (ofBytes_toBytes_settles misnamed sound).2 hfits (by decide +kernel) hsettles⟩, fun n hn => ?_⟩
  have hplaced : lacking.Placed := by
    refine ⟨fun e he => ?_, fun t ht => ?_⟩
    · cases List.mem_singleton.1 he
      rfl
    · cases List.mem_singleton.1 ht
      refine ⟨fun e he => ?_, fun f hf => ?_, nofun⟩
      · cases List.mem_singleton.1 he
        rfl
      · cases List.mem_singleton.1 hf
        exact ⟨["value"], rfl⟩
  obtain ⟨hvalid, -, hsame⟩ := (ofBytes_toBytes_settles lacking n).1 hn
  rw [← hsame hplaced] at hvalid
  exact absurd hvalid (by decide +kernel)

/-- A sub-field with a wrong name, one too many and an object type under a foreign ID make models that are not valid,
and that are written as a valid one is. -/
theorem ofBytes_toBytes_repaired :
    let shoe (subFields : List SimpleField) : ObjectType :=
      (ObjectType.create "Shoe" 1).addField (.complex ⟨"tags", 2, .list, subFields⟩)
    let tag (name : String) (id : StorageId) : SimpleField := ⟨name, id, false, .value "String" 0⟩
    let sound : Model := Model.empty.add (shoe [tag "element" 3])
    ∀ m ∈ [Model.empty.add (shoe [tag "item" 3]), Model.empty.add (shoe [tag "element" 3, tag "more" 4]),
        ⟨.ofList [(5, shoe [tag "element" 3])]⟩],
      m.validate ≠ .ok () ∧ ofBytes m.toBytes = .ok sound ∧ sound ≠ m := by
  intro shoe tag sound m hm
  have hwritten : m.toDocument = sound.toDocument ∧ m.validate ≠ .ok () ∧ sound ≠ m := by
    revert m
    decide +kernel
  obtain ⟨hdocument, hinvalid, hne⟩ := hwritten
  have hbytes : m.toBytes = sound.toBytes := by
    rw [toBytes, toBytes, chars, chars, hdocument]
  exact ⟨hinvalid, hbytes ▸ ofBytes_toBytes (by decide +kernel), hne⟩

end Model

end Keyspace.Schema
