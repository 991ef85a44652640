import Keyspace.Index.Info
import Keyspace.Scan

/-!
Typed views of composite indexes in a store. An entry is a key without a value: the ID of the index, the
column values, and the ID of the object, one after the other, so that entries sort by their values in order
and then by object.
-/
namespace Keyspace.Index

open Schema (SchemaError)

structure TypedIndex (columns : List ColumnType) where
  info : IndexInfo
  deriving DecidableEq

def IndexInfo.bind (info : IndexInfo) (columns : List ColumnType) :
    Except SchemaError (TypedIndex columns) := do
  info.checkColumns columns
  return ⟨info⟩

namespace TypedIndex

variable {columns : List ColumnType} {σ : Type}

/-- What the keys of the entries with some values start with. -/
def valuesPrefix (i : TypedIndex columns) (values : Values columns) : Key :=
  i.info.keyPrefix ++ Values.encode columns values

def key (i : TypedIndex columns) (values : Values columns) (id : ObjectId) : Key :=
  i.valuesPrefix values ++ BigEndian.encode64 id

/-- Takes values and an ID off the front of some bytes. -/
def decodeEntry : Decoder (Values columns × ObjectId) := do
  return (← Values.decode columns, ← ColumnType.reference.decode)

def decodeKey (i : TypedIndex columns) (k : Key) : Except StoreError (Values columns × ObjectId) :=
  if i.info.keyPrefix.isPrefixOf k then
    match (decodeEntry : Decoder (Values columns × ObjectId)) (k.drop i.info.keyPrefix.length) with
    | (.error why, _) => .error why
    | (.ok entry, []) => .ok entry
    | (.ok _, rest) => .error (.corrupt (.trailingBytes rest.length i.info.describe))
  else .error (.corrupt (.foreignKey i.info.describe))

section Reading

variable [KeyValueReader σ]

def contains (i : TypedIndex columns) (values : Values columns) (id : ObjectId) : StoreM σ Bool := do
  return (← KeyValueReader.get? (i.key values id)).isSome

/-- The entries whose keys start with some bytes; one that cannot be decoded does not end the list. -/
def entriesFrom (i : TypedIndex columns) (start : Key) (reverse : Bool) :
    StateM σ (List (Except StoreError (Values columns × ObjectId))) := do
  let (_, items) ← (Scan.create (.startingWith start) none reverse).items
  return items.map fun item => item.bind fun e => i.decodeKey e.1

def entries (i : TypedIndex columns) :
    StateM σ (List (Except StoreError (Values columns × ObjectId))) :=
  i.entriesFrom i.info.keyPrefix false

def entriesReversed (i : TypedIndex columns) :
    StateM σ (List (Except StoreError (Values columns × ObjectId))) :=
  i.entriesFrom i.info.keyPrefix true

/-- The IDs of the objects with exactly some values, in ascending order. An entry that cannot be decoded
ends the walk, so that nothing behind it counts as read. -/
def objectsWith (i : TypedIndex columns) (values : Values columns) : StoreM σ (List ObjectId) := do
  Scan.images (fun e => (i.decodeKey e.1).map (·.2)) (KeyValueReader.entryCount (← get) + 1)
    (.create (.startingWith (i.valuesPrefix values)) none false)

end Reading

section Writing

variable [KeyValueStore σ]

def insert (i : TypedIndex columns) (values : Values columns) (id : ObjectId) : StoreM σ Unit :=
  KeyValueStore.put (i.key values id) []

def remove (i : TypedIndex columns) (values : Values columns) (id : ObjectId) : StoreM σ Unit :=
  KeyValueStore.remove (i.key values id)

end Writing

end TypedIndex

end Keyspace.Index
