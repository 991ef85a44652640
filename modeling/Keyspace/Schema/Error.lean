import Keyspace.Schema.Model
import Keyspace.Text.Quoted

/-!
What can be wrong with a schema or its document. The causes are kept apart; `SchemaError.message` is the
one place that words them. Items that a cause is about are given as messages describe them.
-/
namespace Keyspace.Schema

inductive Violation where
  | invalidName (name what : String)
  | invalidStorageId (id : StorageId) (what : String)
  | emptyTypeName (what : String)
  | subFieldNames (what : String) (expected actual : List String)
  | parentStorageId (subField what : String) (id : StorageId)
  | indexArity (what : String) (count : Nat)
  | repeatedIndexField (what : String) (id : StorageId)
  | keyedUnder (item : String) (key : StorageId)
  | indexOverOtherField (index field : String)
  | indexOverMissingField (index : String) (id : StorageId) (objectType : String)
  | storedIndexArity (index : String) (count : Nat)
  | storedIndexField (index : String) (id : StorageId) (objectType : String)
  | columnCount (index : String) (declared supplied : Nat)
  | columnTypes (index : String) (declared supplied : List String)
  | unknownIndex (version : UInt32) (id : StorageId)
  deriving DecidableEq

inductive Duplicate where
  | identifier (what word : String)
  | field (what name : String)
  | index (what name : String)
  | objectType (name : String)
  deriving DecidableEq

/-- How a document of the right shape fails to describe a schema. -/
inductive DocumentFault where
  | unnamedField (id : StorageId)
  | repeatedField (objectType : String) (id : StorageId)
  | earlyIndexes (objectType : String) (version : Nat)
  | repeatedIndex (objectType : String) (id : StorageId)
  | wrongList (version : Nat) (expected : String)
  | repeatedObjectType (id : StorageId) (existing added : String)
  deriving DecidableEq

inductive SchemaError where
  | invalid (why : Violation)
  | duplicateName (why : Duplicate)
  | storageIdConflict (id : StorageId) (existing conflicting : String)
  | unsupportedVersion (version : Nat)
  /-- The document is not JSON, or not of the right shape. -/
  | malformed
  | document (why : DocumentFault)
  | transfer (source reason : String)
  deriving DecidableEq

def Violation.message : Violation → String
  | invalidName name what =>
    "invalid name " ++ Text.quote name ++ " for " ++ what ++
      ": names must match ^[A-Za-z_$][A-Za-z0-9_$]*$"
  | invalidStorageId id what =>
    "invalid storage ID " ++ toString id.toNat ++ " for " ++ what ++
      ": storage IDs must be between 1 and " ++ toString maxStorageId.toNat
  | emptyTypeName what => what ++ " has an empty type name"
  | subFieldNames what expected actual =>
    what ++ " must have sub-fields " ++ Text.quoteList expected ++ " but has " ++
      Text.quoteList actual
  | parentStorageId subField what id =>
    nameItem "sub-field" subField ++ " of " ++ what ++ " reuses the parent's storage ID " ++
      toString id.toNat
  | indexArity what count =>
    what ++ " has " ++ toString count ++ " fields but composite indexes must have between " ++
      toString minIndexFields ++ " and " ++ toString maxIndexFields
  | repeatedIndexField what id =>
    what ++ " indexes field #" ++ toString id.toNat ++ " more than once"
  | keyedUnder item key => item ++ " is keyed under storage ID " ++ toString key.toNat
  | indexOverOtherField index field =>
    index ++ " refers to " ++ field ++ ", but composite indexes may only refer to simple fields"
  | indexOverMissingField index id objectType =>
    index ++ " refers to field #" ++ toString id.toNat ++ ", which does not exist in " ++ objectType
  | storedIndexArity index count =>
    index ++ " has " ++ toString count ++ " fields; composite indexes need " ++
      toString minIndexFields ++ " to " ++ toString maxIndexFields
  | storedIndexField index id objectType =>
    index ++ " refers to #" ++ toString id.toNat ++ ", which is not a simple field of " ++ objectType
  | columnCount index declared supplied =>
    index ++ " has " ++ toString declared ++ " fields but " ++ toString supplied ++
      " columns were supplied"
  | columnTypes index declared supplied =>
    index ++ " has field types " ++ Text.quoteList declared ++ " but columns of types " ++
      Text.quoteList supplied ++ " were supplied"
  | unknownIndex version id =>
    "schema version " ++ toString version.toNat ++ " has no composite index with storage ID " ++
      toString id.toNat

def Duplicate.message : Duplicate → String
  | identifier what word => nameItem (what ++ " has duplicate identifier") word
  | field what name => nameItem (what ++ " has more than one field named") name
  | index what name => nameItem (what ++ " has more than one composite index named") name
  | objectType name => nameItem "more than one object type is named" name

def DocumentFault.message : DocumentFault → String
  | unnamedField id => "field with storage ID " ++ toString id.toNat ++ " has no name"
  | repeatedField objectType id =>
    objectType ++ " declares storage ID " ++ toString id.toNat ++ " for more than one field"
  | earlyIndexes objectType version =>
    objectType ++ " declares composite indexes, which require format version 2 but the document is " ++
      "version " ++ toString version
  | repeatedIndex objectType id =>
    objectType ++ " declares storage ID " ++ toString id.toNat ++ " for more than one composite index"
  | wrongList version expected =>
    nameItem ("format version " ++ toString version ++ " documents list object types under") expected
  | repeatedObjectType id existing added =>
    "duplicate use of storage ID " ++ toString id.toNat ++ " by " ++ existing ++ " and " ++ added

def SchemaError.message : SchemaError → String
  | invalid why => "Invalid schema: " ++ why.message
  | duplicateName why => "Duplicate name: " ++ why.message
  | storageIdConflict id existing conflicting =>
    "Incompatible duplicate use of storage ID " ++ toString id.toNat ++ " by both " ++ existing ++
      " and " ++ conflicting
  | unsupportedVersion version => "Unsupported schema format version " ++ toString version
  | malformed => "Invalid schema document"
  | document why => "Invalid schema document: " ++ why.message
  | transfer source reason =>
    "I/O error reading or writing schema " ++ source ++ ": " ++ reason

end Keyspace.Schema
