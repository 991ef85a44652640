import Keyspace.Database
import Keyspace.Index.TypedIndex
import Keyspace.Schema.Diff
import Keyspace.Schema.Format

/-!
Databases whose contents are governed by schemas. Each schema version in use is recorded in the database
itself, as a document under a key of its own. A transaction is opened against a schema, which has to be
compatible with the one recorded under its version; a new version is recorded only if it agrees on storage
IDs with all versions recorded before.
-/
namespace Keyspace

open Schema (Model Registry SchemaError StorageId)
open Index (IndexInfo)

inductive CatalogError where
  | schema (why : SchemaError)
  | store (why : StoreError)
  /-- The schema recorded under a version is not compatible with the one given. -/
  | mismatch (version : UInt32) (differences : List Schema.Diff)
  | unknownVersion (version : UInt32)

namespace CatalogError

def message : CatalogError → String
  | schema why => why.message
  | store why => why.message
  | mismatch version differences =>
    "Schema version " ++ toString version.toNat ++
      " is already recorded with an incompatible schema:\n" ++ Schema.Diff.render differences
  | unknownVersion version =>
    "Schema version " ++ toString version.toNat ++ " is not recorded in the database"

/-- Whether the failed call may succeed when it is tried again. -/
def isRetryable : CatalogError → Bool
  | store why => why.isRetryable
  | _ => false

end CatalogError

namespace Catalog

/-- An action on a state `σ` that may fail for reasons of the schema or of the store. -/
abbrev CatalogM (σ α : Type) := ExceptT CatalogError (StateM σ) α

/-- Actions of the store are among those of the catalog. -/
instance {σ : Type} : MonadLift (ExceptT StoreError (StateM σ)) (ExceptT CatalogError (StateM σ)) :=
  ⟨ExceptT.adapt .store⟩

/-- Checks of the schema are among the actions of the catalog. -/
instance {σ : Type} : MonadLift (Except SchemaError) (ExceptT CatalogError (StateM σ)) :=
  ⟨fun r => ExceptT.mk (pure (r.mapError .schema))⟩

/-- What the keys of recorded versions start with. No storage ID starts with the byte `0xff`, so no
object data can be under these keys. -/
def versionPrefix : Key := [0xff, 0x53]

def versionKey (version : UInt32) : Key := versionPrefix ++ BigEndian.encode32 version

abbrev Versions := SortedMap UInt32 Model

/-- The version and the schema that an entry records. -/
def readVersion (e : Entry) : Except CatalogError (UInt32 × Model) :=
  let suffix := e.1.drop versionPrefix.length
  if suffix.length ≠ 4 then .error (.store (.corrupt (.invalidVersionKey e)))
  else match Model.ofBytes e.2 with
    | .ok m => .ok (UInt32.ofNat (BigEndian.decode suffix), m)
    | .error why => .error (.schema why)

/-- Adds the versions that the items of a walk record; the first failure ends it. -/
def readItems : List (Except StoreError Entry) → Versions → Except CatalogError Versions
  | [], versions => .ok versions
  | .error why :: _, _ => .error (.store why)
  | .ok e :: items, versions =>
    match readVersion e with
    | .ok (version, m) => readItems items (versions.insert version m)
    | .error why => .error why

def recorded {τ : Type} [KeyValueReader τ] : CatalogM τ Versions := ExceptT.mk do
  let (_, items) ← (Scan.create (.startingWith versionPrefix) none false).items
  return readItems items .empty

def indexInfos (schema : Model) : Except SchemaError (SortedMap StorageId IndexInfo) :=
  schema.objectTypes.values.foldlM (fun infos t =>
    t.indexes.values.foldlM (fun infos i => do return infos.insert i.id (← IndexInfo.resolve t i))
      infos) .empty

/-- Fails unless the items of a schema agree with those of all recorded versions. -/
def checkConsistent (schema : Model) (versions : Versions) : Except SchemaError Unit := do
  let registry ← Registry.ofModel schema
  versions.values.forM fun other => do
    registry.checkConsistent (← Registry.ofModel other)

/-- Checks a schema against the one recorded under its version, or records it. -/
def apply {τ : Type} [KeyValueStore τ] (schema : Model) (version : UInt32) (allowNew : Bool) :
    CatalogM τ Unit := do
  let versions ← recorded
  match versions.get? version with
  | some existing =>
    unless existing.compatible schema do throw (.mismatch version (schema.diff existing))
  | none =>
    unless allowNew do throw (.unknownVersion version)
    checkConsistent schema versions
    (KeyValueStore.put (versionKey version) schema.toBytes : StoreM τ Unit)

end Catalog

/-- An open transaction that is bound to a version of a schema. -/
structure SchemaTransaction (τ : Type) where
  transaction : τ
  schema : Model
  version : UInt32
  indexes : SortedMap StorageId IndexInfo

namespace SchemaTransaction

variable {τ : Type}

def indexInfo? (t : SchemaTransaction τ) (id : StorageId) : Option IndexInfo := t.indexes.get? id

def index (t : SchemaTransaction τ) (id : StorageId) (columns : List Index.ColumnType) :
    Except SchemaError (Index.TypedIndex columns) :=
  match t.indexInfo? id with
  | some info => info.bind columns
  | none => .error (.invalid (.unknownIndex t.version id))

end SchemaTransaction

namespace Catalog

variable {δ τ : Type} [TransactionalDatabase δ τ]

/-- Opens a transaction against a version of a schema; version `0` stands for the autogenerated one. A
version that is not recorded yet is recorded in the new transaction, if that is allowed. A transaction
that cannot be bound to the schema is rolled back. -/
def enter [KeyValueStore τ] (schema : Model) (version : UInt32) (allowNew : Bool) :
    CatalogM δ (SchemaTransaction τ) := do
  schema.validate
  let version := if version = 0 then schema.autogeneratedVersion else version
  let indexes ← indexInfos schema
  let t ← (TransactionalDatabase.enter : StoreM δ τ)
  match apply schema version allowNew t with
  | (.ok (), t) => return ⟨t, schema, version, indexes⟩
  | (.error why, t) =>
    let _ ← ExceptT.lift (TransactionalDatabase.rollback t : StoreM δ Unit).run
    throw why

def commit (t : SchemaTransaction τ) : CatalogM δ Unit :=
  (TransactionalDatabase.commit t.transaction : StoreM δ Unit)

def rollback (t : SchemaTransaction τ) : CatalogM δ Unit :=
  (TransactionalDatabase.rollback t.transaction : StoreM δ Unit)

/-- The recorded versions, read in a transaction of their own. -/
def versions [KeyValueReader τ] : CatalogM δ Versions := do
  let t ← (TransactionalDatabase.enter : StoreM δ τ)
  let (result, t) := recorded t
  (TransactionalDatabase.rollback t : StoreM δ Unit)
  liftExcept result

end Catalog

end Keyspace
