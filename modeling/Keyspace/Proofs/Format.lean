import Keyspace.Proofs.Json
import Keyspace.Proofs.SortedMap
import Keyspace.Proofs.Utf8
import Keyspace.Schema.Format

/-!
Reading a schema document gives back the document that was written. Each record is written as some of its
fields in their order, and a field that is left out is read as its default.
-/
namespace Keyspace

namespace Json

/-! ## Records -/

def present (fields : List (String × Option Json)) : List (String × Json) :=
  fields.flatMap fun f => (f.2.map (f.1, ·)).toList

@[simp] theorem present_nil : present [] = [] := rfl

@[simp] theorem present_some (name : String) (v : Json) (fields : List (String × Option Json)) :
    present ((name, some v) :: fields) = (name, v) :: present fields := rfl

theorem present_cons (f : String × Option Json) (fields : List (String × Option Json)) :
    present (f :: fields) = (f.2.map (f.1, ·)).toList ++ present fields := rfl

theorem membersNamed_append (name : String) (ms ns : List (String × Json)) :
    membersNamed name (ms ++ ns) = membersNamed name ms ++ membersNamed name ns := by
  simp [membersNamed]

theorem membersNamed_toList (name : String) (f : String × Option Json) :
    membersNamed name (f.2.map (f.1, ·)).toList = if f.1 = name then f.2.toList else [] := by
  obtain ⟨n, o⟩ := f
  cases o with
  | none => simp [membersNamed]
  | some v => by_cases hn : n = name <;> simp [membersNamed, hn]

theorem membersNamed_present_of_notMem {name : String} {fields : List (String × Option Json)}
    (h : name ∉ fields.map (·.1)) : membersNamed name (present fields) = [] := by
  induction fields with
  | nil => rfl
  | cons f fields ih =>
    rw [List.map_cons, List.mem_cons, not_or] at h
    rw [present_cons, membersNamed_append, membersNamed_toList, ih h.2, if_neg (Ne.symm h.1),
      List.nil_append]

/-- Of different fields each is found under its name. -/
theorem membersNamed_present {fields : List (String × Option Json)} (h : (fields.map (·.1)).Nodup)
    {f : String × Option Json} (hf : f ∈ fields) : membersNamed f.1 (present fields) = f.2.toList := by
  induction fields with
  | nil => exact absurd hf List.not_mem_nil
  | cons g fields ih =>
    rw [List.map_cons, List.nodup_cons] at h
    rw [present_cons, membersNamed_append, membersNamed_toList]
    rcases List.mem_cons.1 hf with rfl | hf
    · rw [if_pos rfl, membersNamed_present_of_notMem h.1, List.append_nil]
    · have hne : g.1 ≠ f.1 := fun he => h.1 (he ▸ List.mem_map_of_mem hf)
      rw [if_neg hne, List.nil_append, ih h.2 hf]

/-- The fields of a record are found by name, the absent ones among them too. -/
theorem record?_present {names : List String} {fields : List (String × Option Json)}
    (hnames : fields.map (·.1) = names) (hnodup : names.Nodup) :
    record? names (object (present fields)) = some (fields.map (·.2)) := by
  subst hnames
  have hall : (present fields).all (fun m => (fields.map (·.1)).contains m.1) = true := by
    simp only [List.all_eq_true, present, List.mem_flatMap]
    rintro m ⟨f, hf, hm⟩
    obtain ⟨v, -, rfl⟩ := Option.map_eq_some_iff.1 (Option.mem_toList.1 hm)
    exact List.contains_iff_mem.2 (List.mem_map_of_mem hf)
  have hfields : ∀ fs : List (String × Option Json), fs ⊆ fields →
      fieldsByName? (fs.map (·.1)) (present fields) = some (fs.map (·.2)) := by
    intro fs hfs
    induction fs with
    | nil => rfl
    | cons f fs ih =>
      obtain ⟨hf, hfs⟩ := List.cons_subset.1 hfs
      have hrest := ih hfs
      rw [fieldsByName?] at hrest ⊢
      rw [List.map_cons, List.mapM_cons, hrest, membersNamed_present hnodup hf]
      obtain ⟨name, o⟩ := f
      cases o <;> rfl
  rw [record?, if_pos hall, hfields fields (List.Subset.refl _)]

/-! ## Fields -/

@[simp] theorem optional_string (o : Option String) : optional string? (o.map string) = some o := by
  cases o <;> rfl

theorem list?_map {α : Type} {read : Json → Option α} {write : α → Json} {as : List α}
    (h : ∀ a ∈ as, read (write a) = some a) : list? read (array (as.map write)) = some as := by
  rw [list?]
  induction as with
  | nil => rfl
  | cons a as ih =>
    rw [List.map_cons, List.mapM_cons, h a List.mem_cons_self, ih fun b hb => h b (List.mem_cons_of_mem _ hb)]
    rfl

end Json

namespace Schema

open Json (present present_cons record?_present list?_map array object integer string required withDefault
  uint32? string? bool? list?)

/-! ## Fields that may be left out -/

def flagJson? (b : Bool) : Option Json := if b then some (.bool true) else none

def signatureJson? (n : Int64) : Option Json := if n = 0 then none else some (integer n.toInt)

def actionJson? (a : DeleteAction) : Option Json := if a = .fail then none else some (string a.keyword)

def restrictionJson? (ids : Option (SortedSet StorageId)) : Option Json :=
  ids.map fun s => array (s.keys.map idJson)

theorem memberUnless_flag (name : String) (b : Bool) :
    memberUnless (!b) name (.bool true) = present [(name, flagJson? b)] := by
  cases b <;> rfl

theorem memberUnless_signature (name : String) (n : Int64) :
    memberUnless (n == 0) name (integer n.toInt) = present [(name, signatureJson? n)] := by
  by_cases hn : n = 0
  · subst hn
    rfl
  · simp [memberUnless, signatureJson?, hn]

theorem memberUnless_action (name : String) (a : DeleteAction) :
    memberUnless (a == .fail) name (string a.keyword) = present [(name, actionJson? a)] := by
  cases a <;> rfl

@[simp] theorem uint32?_idJson (id : StorageId) : uint32? (idJson id) = some id := by
  have hrange : (0 : Int) ≤ (id.toNat : Int) ∧ (id.toNat : Int) ≤ (Json.maxUInt32 : Nat) := by
    have := id.toNat_lt
    simp only [Json.maxUInt32]
    omega
  simp [uint32?, idJson, Json.nat?, hrange]

theorem int64?_integer (n : Int64) : Json.int64? (integer n.toInt) = some n := by
  rw [Json.int64?, if_pos ⟨n.minValue_le_toInt, n.toInt_le⟩, Int64.ofInt_toInt]

theorem list?_ids (ids : List StorageId) : list? uint32? (array (ids.map idJson)) = some ids :=
  list?_map fun id _ => uint32?_idJson id

theorem list?_strings (words : List String) : list? string? (array (words.map string)) = some words :=
  list?_map fun _ _ => rfl

@[simp] theorem withDefault_flag (b : Bool) : withDefault false bool? (flagJson? b) = some b := by
  cases b <;> rfl

@[simp] theorem withDefault_signature (n : Int64) :
    withDefault 0 Json.int64? (signatureJson? n) = some n := by
  by_cases hn : n = 0
  · subst hn
    rfl
  · simp [signatureJson?, hn, withDefault, int64?_integer]

@[simp] theorem withDefault_action (a : DeleteAction) :
    withDefault .fail DeleteAction.ofJson? (actionJson? a) = some a := by
  cases a <;> rfl

@[simp] theorem optional_restriction (ids : Option (SortedSet StorageId)) :
    Json.optional (list? uint32?) (restrictionJson? ids) = some (ids.map SortedMap.keys) := by
  cases ids with
  | none => rfl
  | some s => exact congrArg (Option.map some) (list?_ids s.keys)

theorem map_ofKeys_keys (ids : Option (SortedSet StorageId)) :
    (ids.map SortedMap.keys).map SortedSet.ofKeys = ids := by
  cases ids with
  | none => rfl
  | some s => exact congrArg some (SortedSet.ofKeys_keys s)

/-! ## Simple fields -/

def valueFields (name : Option String) (id : StorageId) (indexed : Bool) (typeName : String)
    (signature : Int64) : List (String × Option Json) :=
  [("name", name.map string), ("storageId", some (idJson id)), ("type", some (string typeName)),
    ("encodingSignature", signatureJson? signature), ("indexed", flagJson? indexed)]

def referenceFields (name : Option String) (id : StorageId) (indexed : Bool) (onDelete : DeleteAction)
    (cascade allow : Bool) (ids : Option (SortedSet StorageId)) : List (String × Option Json) :=
  [("name", name.map string), ("storageId", some (idJson id)), ("indexed", flagJson? indexed),
    ("onDelete", actionJson? onDelete), ("cascadeDelete", flagJson? cascade),
    ("allowDeleted", flagJson? allow), ("objectTypes", restrictionJson? ids)]

def enumerationFields (name : Option String) (id : StorageId) (indexed : Bool) (identifiers : List String) :
    List (String × Option Json) :=
  [("name", name.map string), ("storageId", some (idJson id)), ("indexed", flagJson? indexed),
    ("identifiers", some (array (identifiers.map string)))]

theorem valueOfJson?_present (name : Option String) (id : StorageId) (indexed : Bool) (typeName : String)
    (signature : Int64) :
    SimpleElement.valueOfJson? (object (present (valueFields name id indexed typeName signature))) =
      some ⟨name, id, indexed, .value typeName signature⟩ := by
  rw [SimpleElement.valueOfJson?, record?_present]
  · simp [valueFields, required, string?]
  · rfl
  · decide

theorem referenceOfJson?_present (name : Option String) (id : StorageId) (indexed : Bool)
    (onDelete : DeleteAction) (cascade allow : Bool) (ids : Option (SortedSet StorageId)) :
    SimpleElement.referenceOfJson?
      (object (present (referenceFields name id indexed onDelete cascade allow ids))) =
      some ⟨name, id, indexed, .reference onDelete cascade allow ids⟩ := by
  have hids := map_ofKeys_keys ids
  rw [SimpleElement.referenceOfJson?, record?_present]
  · simp only [referenceFields, List.map_cons, List.map_nil, Option.bind_eq_bind, Option.bind_some,
      Json.optional_string, required, uint32?_idJson, withDefault_flag, withDefault_action,
      optional_restriction, hids, Option.pure_def]
  · rfl
  · decide

theorem enumerationOfJson?_present (name : Option String) (id : StorageId) (indexed : Bool)
    (identifiers : List String) :
    SimpleElement.enumerationOfJson? (object (present (enumerationFields name id indexed identifiers))) =
      some ⟨name, id, indexed, .enumeration identifiers⟩ := by
  rw [SimpleElement.enumerationOfJson?, record?_present]
  · simp [enumerationFields, required, list?_strings]
  · rfl
  · decide

/-- What is written of a simple element is read back. -/
theorem SimpleElement.ofJson?_toJson (e : SimpleElement) : ofJson? e.toJson = some e := by
  obtain ⟨name, id, indexed, kind⟩ := e
  cases kind with
  | value typeName signature =>
    have hfields : toJson ⟨name, id, indexed, .value typeName signature⟩ =
        object [("SimpleField", object (present (valueFields name id indexed typeName signature)))] := by
      cases name <;>
        simp [toJson, memberUnless_signature, memberUnless_flag, valueFields, present_cons]
    rw [hfields]
    exact valueOfJson?_present ..
  | reference onDelete cascade allow ids =>
    have hfields : toJson ⟨name, id, indexed, .reference onDelete cascade allow ids⟩ =
        object [("ReferenceField",
          object (present (referenceFields name id indexed onDelete cascade allow ids)))] := by
      cases name <;> cases ids <;>
        simp [toJson, memberUnless_action, memberUnless_flag, referenceFields, restrictionJson?, present_cons]
    rw [hfields]
    exact referenceOfJson?_present ..
  | enumeration identifiers =>
    have hfields : toJson ⟨name, id, indexed, .enumeration identifiers⟩ =
        object [("EnumField", object (present (enumerationFields name id indexed identifiers)))] := by
      cases name <;> simp [toJson, memberUnless_flag, enumerationFields, present_cons]
    rw [hfields]
    exact enumerationOfJson?_present ..

/-! ## Fields, indexes and object types -/

/-- A record all of whose fields are present. -/
theorem record?_object {names : List String} {ms : List (String × Json)} (hnames : ms.map (·.1) = names)
    (hnodup : names.Nodup) : Json.record? names (object ms) = some (ms.map fun m => some m.2) := by
  have hpresent : present (ms.map fun m => (m.1, some m.2)) = ms := by
    induction ms generalizing names with
    | nil => rfl
    | cons m ms ih =>
      subst hnames
      rw [List.map_cons, Json.present_some, ih rfl (List.nodup_cons.1 hnodup).2]
  have hread : Json.record? names (object (present (ms.map fun m => (m.1, some m.2)))) = _ :=
    record?_present (by simpa [Function.comp_def] using hnames) hnodup
  rw [hpresent] at hread
  simpa [Function.comp_def] using hread

theorem collectionOfJson?_object (name : String) (id : StorageId) (e : SimpleElement) :
    FieldElement.collectionOfJson?
      (object [("name", string name), ("storageId", idJson id), ("element", e.toJson)]) =
      some (name, id, e) := by
  rw [FieldElement.collectionOfJson?, record?_object]
  · simp [required, string?, e.ofJson?_toJson]
  · rfl
  · decide

/-- What is written of a field is read back. -/
theorem FieldElement.ofJson?_toJson (e : FieldElement) : ofJson? e.toJson = some e := by
  cases e with
  | simple e =>
    have hread := e.ofJson?_toJson
    obtain ⟨name, id, indexed, kind⟩ := e
    cases kind <;> exact congrArg (Option.bind · fun e => some (FieldElement.simple e)) hread
  | counter name id =>
    change counterOfJson? (object [("name", string name), ("storageId", idJson id)]) = _
    rw [counterOfJson?, record?_object]
    · simp [required, string?]
    · rfl
    · decide
  | list name id e => exact congrArg (Option.bind · _) (collectionOfJson?_object name id e)
  | set name id e => exact congrArg (Option.bind · _) (collectionOfJson?_object name id e)
  | map name id key value =>
    change mapOfJson? (object [("name", string name), ("storageId", idJson id), ("key", key.toJson),
      ("value", value.toJson)]) = _
    rw [mapOfJson?, record?_object]
    · simp [required, string?, key.ofJson?_toJson, value.ofJson?_toJson]
    · rfl
    · decide

theorem CompositeIndex.ofJson?_toJson (i : CompositeIndex) : ofJson? i.toJson = some i := by
  rw [toJson, ofJson?, record?_object]
  · simp [required, string?, list?_ids]
  · rfl
  · decide

/-- What is written of an object type is read back. -/
theorem ObjectTypeElement.ofJson?_toJson (e : ObjectTypeElement) : ofJson? e.toJson = some e := by
  obtain ⟨name, id, fields, indexes⟩ := e
  have hfields : list? FieldElement.ofJson? (array (fields.map FieldElement.toJson)) = some fields :=
    list?_map fun f _ => f.ofJson?_toJson
  have hindexes : Json.optional (list? CompositeIndex.ofJson?)
      (indexes.map fun is => array (is.map CompositeIndex.toJson)) = some indexes := by
    cases indexes with
    | none => rfl
    | some is => exact congrArg (Option.map some) (list?_map fun i _ => i.ofJson?_toJson)
  have hpresent : toJson ⟨name, id, fields, indexes⟩ = object (present [("name", some (string name)),
      ("storageId", some (idJson id)), ("fields", some (array (fields.map FieldElement.toJson))),
      ("compositeIndexes", indexes.map fun is => array (is.map CompositeIndex.toJson))]) := by
    cases indexes <;> rfl
  rw [hpresent, ofJson?, record?_present]
  · simp [required, withDefault, string?, hfields, hindexes]
  · rfl
  · decide

theorem optional_elements (types : Option (List ObjectTypeElement)) :
    Json.optional (list? ObjectTypeElement.ofJson?)
      (types.map fun ts => array (ts.map ObjectTypeElement.toJson)) = some types := by
  cases types with
  | none => rfl
  | some ts => exact congrArg (Option.map some) (list?_map fun t _ => t.ofJson?_toJson)

/-- A document is read back, as long as its version is a number of 64 bits. -/
theorem Document.ofJson?_toJson {d : Document} (h : d.version ≤ Json.maxUInt64) :
    ofJson? d.toJson = some d := by
  obtain ⟨version, types, objects⟩ := d
  have hversion : Json.nat? Json.maxUInt64 (integer version) = some version := by
    have hrange : (0 : Int) ≤ version ∧ (version : Int) ≤ Json.maxUInt64 := by
      change version ≤ Json.maxUInt64 at h
      omega
    simp [Json.nat?, hrange]
  have hpresent : toJson ⟨version, types, objects⟩ = object [("SchemaModel",
      object (present [("formatVersion", some (integer version)),
        ("ObjectType", types.map fun ts => array (ts.map ObjectTypeElement.toJson)),
        ("Object", objects.map fun ts => array (ts.map ObjectTypeElement.toJson))]))] := by
    cases types <;> cases objects <;> rfl
  rw [hpresent, ofJson?, record?_object]
  · simp only [List.map_cons, List.map_nil, Option.bind_eq_bind, Option.bind_some]
    rw [record?_present]
    · simp [withDefault, hversion, optional_elements]
    · rfl
    · decide
  · rfl
  · decide

/-- The bytes of a model are read as its document, whether the model is valid or not. -/
theorem Document.ofBytes?_toBytes (m : Model) : ofBytes? m.toBytes = some m.toDocument := by
  have hdocument : ofJson? m.toDocument.toJson = some m.toDocument :=
    ofJson?_toJson (show currentVersion ≤ _ by decide)
  rw [ofBytes?, Model.toBytes, Utf8.decodeChars_encodeChars]
  simp [Model.chars, Json.parseChars_prettyChars, hdocument]

end Schema

end Keyspace
