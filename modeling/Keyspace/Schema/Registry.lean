import Keyspace.Schema.Compatibility
import Keyspace.Schema.Error

/-!
Who uses which storage ID. Within one schema an ID may be shared only by equal items of one sort, where a
sub-field counts as the simple field it is; across the schema versions of one database it may be shared by
items that stay compatible. Building a registry checks the first, comparing two registries the second.
-/
namespace Keyspace.Schema

/-- An item that has a storage ID, with the items it belongs to. -/
inductive Item where
  | objectType (t : ObjectType)
  | field (t : ObjectType) (f : Field)
  | subField (t : ObjectType) (parent : ComplexField) (f : SimpleField)
  | index (t : ObjectType) (i : CompositeIndex)
  deriving DecidableEq

namespace Item

def id : Item → StorageId
  | objectType t => t.id
  | field _ f => f.id
  | subField _ _ f => f.id
  | index _ i => i.id

def simple? : Item → Option SimpleField
  | field _ f => f.simple?
  | subField _ _ f => some f
  | _ => none

/-- Whether two items of one schema are the same item, so that they may share an ID. -/
def same (a b : Item) : Bool :=
  match a, b with
  | objectType t, objectType u => t == u
  | field _ f, field _ g => f == g
  | index _ i, index _ j => i == j
  | _, _ =>
    match a.simple?, b.simple? with
    | some f, some g => f == g
    | _, _ => false

/-- Whether two schema versions may use one ID for these items. Object types may evolve freely. -/
def consistent (a b : Item) : Bool :=
  match a, b with
  | objectType _, objectType _ => true
  | field _ f, field _ g => f.compatible g
  | index _ i, index _ j => i.compatible j
  | _, _ =>
    match a.simple?, b.simple? with
    | some f, some g => f.compatible g
    | _, _ => false

def describe : Item → String
  | objectType t => t.describe
  | field t f => f.describe ++ " of " ++ t.describe
  | subField t parent f =>
    describeItem "sub-field" f.name f.id ++ " of " ++ nameItem "field" parent.name ++ " of " ++
      t.describe
  | index t i => i.describe ++ " of " ++ t.describe

end Item

def Field.items (t : ObjectType) (f : Field) : List Item :=
  match f with
  | .complex parent => .field t f :: parent.subFields.map (.subField t parent)
  | _ => [.field t f]

def ObjectType.items (t : ObjectType) : List Item :=
  .objectType t :: t.fields.values.flatMap (Field.items t) ++ t.indexes.values.map (.index t)

/-- All items of a model, in order of the IDs they are kept under. -/
def Model.items (m : Model) : List Item := m.objectTypes.values.flatMap ObjectType.items

/-- The first item that uses each storage ID. -/
structure Registry where
  items : SortedMap StorageId Item
  deriving DecidableEq

namespace Registry

def empty : Registry := ⟨.empty⟩

def get? (r : Registry) (id : StorageId) : Option Item := r.items.get? id

/-- Adds an item, unless the same item is there; fails if another item uses its ID. -/
def register (r : Registry) (item : Item) : Except SchemaError Registry :=
  match r.get? item.id with
  | none => .ok ⟨r.items.insert item.id item⟩
  | some existing =>
    if existing.same item then .ok r
    else .error (.storageIdConflict item.id existing.describe item.describe)

/-- Fails if an index refers to something other than a simple field of its object type. -/
def checkIndex (t : ObjectType) (i : CompositeIndex) : Except SchemaError Unit :=
  i.fields.forM fun id =>
    let index := i.describe ++ " of " ++ t.describe
    match t.field? id with
    | some (.simple _) => .ok ()
    | some other => .error (.invalid (.indexOverOtherField index other.describe))
    | none => .error (.invalid (.indexOverMissingField index id t.describe))

/-- The registry of a model, whose IDs and index references it checks. -/
def ofModel (m : Model) : Except SchemaError Registry := do
  let r ← m.items.foldlM register empty
  m.objectTypes.values.forM fun t => t.indexes.values.forM (checkIndex t)
  return r

/-- Fails at the least ID that two registries use inconsistently. -/
def checkConsistent (r s : Registry) : Except SchemaError Unit :=
  r.items.toList.forM fun (id, item) =>
    match s.get? id with
    | none => .ok ()
    | some existing =>
      if item.consistent existing then .ok ()
      else .error (.storageIdConflict id existing.describe item.describe)

end Registry

end Keyspace.Schema
