import Keyspace.Schema.Error

/-!
Schema documents: the elements that a written schema consists of, and the way from them to a model and
back. Documents of format version 0 list their object types under one name and later ones under another;
only version 2, which is the one written, may declare composite indexes. A sub-field takes its name from
its place and is written without it.
-/
namespace Keyspace.Schema

structure SimpleElement where
  name : Option String
  id : StorageId
  indexed : Bool
  kind : SimpleKind
  deriving DecidableEq

inductive FieldElement where
  | simple (e : SimpleElement)
  | counter (name : String) (id : StorageId)
  | list (name : String) (id : StorageId) (element : SimpleElement)
  | set (name : String) (id : StorageId) (element : SimpleElement)
  | map (name : String) (id : StorageId) (key value : SimpleElement)
  deriving DecidableEq

structure ObjectTypeElement where
  name : String
  id : StorageId
  fields : List FieldElement
  indexes : Option (List CompositeIndex)
  deriving DecidableEq

structure Document where
  version : Nat
  objectTypes : Option (List ObjectTypeElement)
  /-- The object types of a document of version 0. -/
  objects : Option (List ObjectTypeElement)
  deriving DecidableEq

def currentVersion : Nat := 2

/-! ## From documents to models -/

namespace SimpleElement

def toField (e : SimpleElement) (defaultName : String) : SimpleField :=
  ⟨e.name.getD defaultName, e.id, e.indexed, e.kind⟩

end SimpleElement

namespace FieldElement

def toField : FieldElement → Except SchemaError Field
  | simple e =>
    match e.name with
    | none => .error (.document (.unnamedField e.id))
    | some name => .ok (.simple (e.toField name))
  | counter name id => .ok (.counter ⟨name, id⟩)
  | list name id element => .ok (.complex ⟨name, id, .list, [element.toField "element"]⟩)
  | set name id element => .ok (.complex ⟨name, id, .set, [element.toField "element"]⟩)
  | map name id key value =>
    .ok (.complex ⟨name, id, .map, [key.toField "key", value.toField "value"]⟩)

end FieldElement

namespace ObjectTypeElement

/-- Adds the field of an element, whose ID no field may have yet. -/
def addField (t : ObjectType) (e : FieldElement) : Except SchemaError ObjectType := do
  let f ← e.toField
  if t.fields.contains f.id then throw (.document (.repeatedField t.describe f.id))
  return t.addField f

def addIndex (t : ObjectType) (i : CompositeIndex) : Except SchemaError ObjectType :=
  if t.indexes.contains i.id then .error (.document (.repeatedIndex t.describe i.id))
  else .ok (t.addIndex i)

/-- The object type of an element in a document of a version. -/
def toObjectType (version : Nat) (e : ObjectTypeElement) : Except SchemaError ObjectType := do
  let t ← e.fields.foldlM addField (.create e.name e.id)
  match e.indexes with
  | none => return t
  | some indexes =>
    if version < 2 then throw (.document (.earlyIndexes t.describe version))
    indexes.foldlM addIndex t

end ObjectTypeElement

namespace Document

/-- The elements of the object types, which have to be listed as the version asks. -/
def elements (d : Document) : Except SchemaError (List ObjectTypeElement) :=
  match d.version with
  | 0 =>
    if d.objectTypes.isSome then .error (.document (.wrongList 0 "Object"))
    else .ok (d.objects.getD [])
  | 1 | 2 =>
    if d.objects.isSome then .error (.document (.wrongList d.version "ObjectType"))
    else .ok (d.objectTypes.getD [])
  | version => .error (.unsupportedVersion version)

/-- Adds the object type of an element, whose ID no object type may have yet. -/
def addObjectType (version : Nat) (m : Model) (e : ObjectTypeElement) : Except SchemaError Model := do
  let t ← e.toObjectType version
  match m.objectType? t.id with
  | some existing =>
    throw (.document (.repeatedObjectType t.id existing.describe t.describe))
  | none => return m.add t

def toModel (d : Document) : Except SchemaError Model := do
  (← d.elements).foldlM (addObjectType d.version) .empty

end Document

/-! ## From models to documents -/

namespace SimpleElement

def ofSubField (f : SimpleField) : SimpleElement := ⟨none, f.id, f.indexed, f.kind⟩

def ofField (f : SimpleField) : SimpleElement := ⟨some f.name, f.id, f.indexed, f.kind⟩

/-- What stands where a sub-field is missing; no document with it describes a valid schema. -/
def placeholder : SimpleElement := ⟨none, 0, false, .value "" 0⟩

end SimpleElement

def ComplexField.elementAt (f : ComplexField) (place : Nat) : SimpleElement :=
  (f.subFields[place]?.map SimpleElement.ofSubField).getD .placeholder

def Field.toElement : Field → FieldElement
  | .simple f => .simple (.ofField f)
  | .counter f => .counter f.name f.id
  | .complex f =>
    match f.collection with
    | .list => .list f.name f.id (f.elementAt 0)
    | .set => .set f.name f.id (f.elementAt 0)
    | .map => .map f.name f.id (f.elementAt 0) (f.elementAt 1)

def ObjectType.toElement (t : ObjectType) : ObjectTypeElement where
  name := t.name
  id := t.id
  fields := t.fields.values.map Field.toElement
  indexes := if t.indexes.isEmpty then none else some t.indexes.values

/-- The order of object types in a document: by name, then by ID. -/
def ObjectType.listedBefore (t u : ObjectType) : Bool :=
  decide (t.name < u.name) || (t.name == u.name && decide (t.id ≤ u.id))

def Model.toDocument (m : Model) : Document where
  version := currentVersion
  objectTypes :=
    some ((m.objectTypes.values.mergeSort ObjectType.listedBefore).map ObjectType.toElement)
  objects := none

end Keyspace.Schema
