import Keyspace.SortedMap

/-!
Schemas. A model holds object types, an object type holds fields and composite indexes, and a list, set or
map field holds simple sub-fields. Each of these items has a storage ID, which stays with the stored data
when names change. Nothing here is checked: a model may hold items under foreign IDs or with bad names.
-/
namespace Keyspace.Schema

abbrev StorageId := UInt32

inductive DeleteAction where
  /-- The deletion fails. -/
  | fail
  /-- The reference is cleared. -/
  | unreference
  /-- The referring object is deleted too. -/
  | delete
  /-- The reference dangles. -/
  | nothing
  deriving DecidableEq, Inhabited

inductive SimpleKind where
  /-- A value of a named type, whose encoding has a signature. -/
  | value (typeName : String) (signature : Int64)
  /-- A reference to an object, whose type may be restricted to a set of object types. -/
  | reference (onDelete : DeleteAction) (cascadeDelete allowDeleted : Bool)
      (objectTypes : Option (SortedSet StorageId))
  /-- One of some identifiers. -/
  | enumeration (identifiers : List String)
  deriving DecidableEq

structure SimpleField where
  name : String
  id : StorageId
  indexed : Bool
  kind : SimpleKind
  deriving DecidableEq

structure CounterField where
  name : String
  id : StorageId
  deriving DecidableEq

inductive Collection where
  | list
  | set
  | map
  deriving DecidableEq

/-- A field with many values, which its sub-fields describe. -/
structure ComplexField where
  name : String
  id : StorageId
  collection : Collection
  subFields : List SimpleField
  deriving DecidableEq

inductive Field where
  | simple (f : SimpleField)
  | counter (f : CounterField)
  | complex (f : ComplexField)
  deriving DecidableEq

structure CompositeIndex where
  name : String
  id : StorageId
  fields : List StorageId
  deriving DecidableEq

structure ObjectType where
  name : String
  id : StorageId
  fields : SortedMap StorageId Field
  indexes : SortedMap StorageId CompositeIndex
  deriving DecidableEq

structure Model where
  objectTypes : SortedMap StorageId ObjectType
  deriving DecidableEq

def maxStorageId : StorageId := 2147483647

/-- The least and greatest number of fields of an index. -/
def minIndexFields : Nat := 2

def maxIndexFields : Nat := 4

/-- The kinds of fields as documents and messages tell them apart. -/
inductive FieldKind where
  | simple
  | reference
  | enumeration
  | counter
  | list
  | set
  | map
  deriving DecidableEq

namespace FieldKind

/-- The name of the kind in documents. -/
def elementName : FieldKind → String
  | simple => "SimpleField"
  | reference => "ReferenceField"
  | enumeration => "EnumField"
  | counter => "CounterField"
  | list => "ListField"
  | set => "SetField"
  | map => "MapField"

/-- The name of the kind in messages. -/
def description : FieldKind → String
  | simple => "simple field"
  | reference => "reference field"
  | enumeration => "enum field"
  | counter => "counter field"
  | list => "list field"
  | set => "set field"
  | map => "map field"

end FieldKind

/-- An item with its storage ID in a message. -/
def describeItem (what name : String) (id : StorageId) : String :=
  what ++ " \"" ++ name ++ "\" (#" ++ toString id.toNat ++ ")"

/-- An item by name alone in a message. -/
def nameItem (what name : String) : String := what ++ " \"" ++ name ++ "\""

namespace DeleteAction

/-- The name of the action in messages. -/
def description : DeleteAction → String
  | fail => "Exception"
  | unreference => "Unreference"
  | delete => "Delete"
  | nothing => "Nothing"

end DeleteAction

namespace SimpleField

def value (name : String) (id : StorageId) (typeName : String) : SimpleField :=
  ⟨name, id, false, .value typeName 0⟩

/-- An indexed reference to objects of any type. -/
def reference (name : String) (id : StorageId) : SimpleField :=
  ⟨name, id, true, .reference .fail false false none⟩

def enumeration (name : String) (id : StorageId) (identifiers : List String) : SimpleField :=
  ⟨name, id, false, .enumeration identifiers⟩

/-- The name of the value type, as indexes use it. -/
def typeName (f : SimpleField) : String :=
  match f.kind with
  | .value typeName _ => typeName
  | .reference .. => "reference"
  | .enumeration _ => "enum"

def fieldKind (f : SimpleField) : FieldKind :=
  match f.kind with
  | .value .. => .simple
  | .reference .. => .reference
  | .enumeration _ => .enumeration

def withSignature (f : SimpleField) (signature : Int64) : SimpleField :=
  match f.kind with
  | .value typeName _ => { f with kind := .value typeName signature }
  | _ => f

def withObjectTypes (f : SimpleField) (ids : List StorageId) : SimpleField :=
  match f.kind with
  | .reference action cascade allow _ =>
    { f with kind := .reference action cascade allow (some (.ofKeys ids)) }
  | _ => f

def withOnDelete (f : SimpleField) (action : DeleteAction) : SimpleField :=
  match f.kind with
  | .reference _ cascade allow ids => { f with kind := .reference action cascade allow ids }
  | _ => f

def withCascadeDelete (f : SimpleField) (cascade : Bool) : SimpleField :=
  match f.kind with
  | .reference action _ allow ids => { f with kind := .reference action cascade allow ids }
  | _ => f

def withAllowDeleted (f : SimpleField) (allow : Bool) : SimpleField :=
  match f.kind with
  | .reference action cascade _ ids => { f with kind := .reference action cascade allow ids }
  | _ => f

end SimpleField

namespace Collection

/-- The names of the sub-fields that a collection needs, in order. -/
def subFieldNames : Collection → List String
  | list | set => ["element"]
  | map => ["key", "value"]

def fieldKind : Collection → FieldKind
  | list => .list
  | set => .set
  | map => .map

end Collection

namespace ComplexField

def subField? (f : ComplexField) (name : String) : Option SimpleField :=
  f.subFields.find? (·.name == name)

end ComplexField

namespace Field

def name : Field → String
  | simple f => f.name
  | counter f => f.name
  | complex f => f.name

def id : Field → StorageId
  | simple f => f.id
  | counter f => f.id
  | complex f => f.id

def kind : Field → FieldKind
  | simple f => f.fieldKind
  | counter _ => .counter
  | complex f => f.collection.fieldKind

def simple? : Field → Option SimpleField
  | simple f => some f
  | _ => none

def subFields : Field → List SimpleField
  | complex f => f.subFields
  | _ => []

def describe (f : Field) : String := describeItem f.kind.description f.name f.id

end Field

namespace CompositeIndex

def describe (i : CompositeIndex) : String := describeItem "composite index" i.name i.id

end CompositeIndex

namespace ObjectType

def create (name : String) (id : StorageId) : ObjectType := ⟨name, id, .empty, .empty⟩

/-- Adds a field under its own storage ID. -/
def addField (t : ObjectType) (f : Field) : ObjectType := { t with fields := t.fields.insert f.id f }

def addIndex (t : ObjectType) (i : CompositeIndex) : ObjectType :=
  { t with indexes := t.indexes.insert i.id i }

def field? (t : ObjectType) (id : StorageId) : Option Field := t.fields.get? id

def fieldByName? (t : ObjectType) (name : String) : Option Field :=
  t.fields.values.find? (·.name == name)

def indexByName? (t : ObjectType) (name : String) : Option CompositeIndex :=
  t.indexes.values.find? (·.name == name)

def describe (t : ObjectType) : String := describeItem "object type" t.name t.id

end ObjectType

namespace Model

def empty : Model := ⟨.empty⟩

def add (m : Model) (t : ObjectType) : Model := ⟨m.objectTypes.insert t.id t⟩

def objectType? (m : Model) (id : StorageId) : Option ObjectType := m.objectTypes.get? id

def objectTypeByName? (m : Model) (name : String) : Option ObjectType :=
  m.objectTypes.values.find? (·.name == name)

end Model

end Keyspace.Schema
