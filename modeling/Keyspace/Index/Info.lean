import Keyspace.Index.Column
import Keyspace.Schema.Error

/-!
Composite indexes resolved against their object types: what the schema says of the fields that make up the
keys of an index, and whether columns that are supplied for it agree.
-/
namespace Keyspace.Index

open Schema (StorageId SimpleField ObjectType CompositeIndex SchemaError)

structure FieldInfo where
  id : StorageId
  name : String
  typeName : String
  deriving DecidableEq

def FieldInfo.ofField (f : SimpleField) : FieldInfo := ⟨f.id, f.name, f.typeName⟩

structure IndexInfo where
  id : StorageId
  name : String
  objectType : StorageId
  fields : List FieldInfo
  deriving DecidableEq

namespace IndexInfo

/-- Looks up a field of an index, which has to be a simple field of the object type. -/
def resolveField (t : ObjectType) (i : CompositeIndex) (id : StorageId) :
    Except SchemaError FieldInfo :=
  match (t.field? id).bind Schema.Field.simple? with
  | some f => .ok (.ofField f)
  | none =>
    .error (.invalid (.storedIndexField (i.describe ++ " of " ++ t.describe) id t.describe))

def resolve (t : ObjectType) (i : CompositeIndex) : Except SchemaError IndexInfo := do
  let arity := i.fields.length
  if arity < Schema.minIndexFields ∨ Schema.maxIndexFields < arity then
    throw (.invalid (.storedIndexArity (i.describe ++ " of " ++ t.describe) arity))
  return ⟨i.id, i.name, t.id, ← i.fields.mapM (resolveField t i)⟩

def arity (info : IndexInfo) : Nat := info.fields.length

def keyPrefix (info : IndexInfo) : Key := BigEndian.encode32 info.id

def describe (info : IndexInfo) : String :=
  Schema.describeItem "composite index" info.name info.id

/-- Fails unless columns agree with the fields in number and types. -/
def checkColumns (info : IndexInfo) (columns : List ColumnType) : Except SchemaError Unit := do
  if columns.length ≠ info.arity then
    throw (.invalid (.columnCount info.describe info.arity columns.length))
  let declared := info.fields.map (·.typeName)
  let supplied := columns.map ColumnType.name
  if declared ≠ supplied then
    throw (.invalid (.columnTypes info.describe declared supplied))

end IndexInfo

end Keyspace.Index
