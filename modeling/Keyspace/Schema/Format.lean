import Keyspace.Json.Decode
import Keyspace.Json.Reader
import Keyspace.Schema.Document
import Keyspace.Schema.Validation

/-!
The durable form of a schema: a JSON document in UTF-8. Members with default values are left out when a
schema is written; reading takes any layout of the document that means the same, and validates the result.
-/
namespace Keyspace.Schema

open Json (array object integer string)

/-! ## Writing -/

/-- A member that is left out where it has its default value. -/
def memberUnless (default : Bool) (name : String) (v : Json) : List (String × Json) :=
  if default then [] else [(name, v)]

def idJson (id : StorageId) : Json := integer id.toNat

def DeleteAction.keyword : DeleteAction → String
  | fail => "EXCEPTION"
  | unreference => "UNREFERENCE"
  | delete => "DELETE"
  | nothing => "NOTHING"

def SimpleElement.toJson (e : SimpleElement) : Json :=
  let name := match e.name with
    | some name => [("name", string name)]
    | none => []
  let start := name ++ [("storageId", idJson e.id)]
  let indexed := memberUnless (!e.indexed) "indexed" (.bool true)
  match e.kind with
  | .value typeName signature =>
    object [("SimpleField", object (start ++ [("type", string typeName)] ++
      memberUnless (signature == 0) "encodingSignature" (integer signature.toInt) ++ indexed))]
  | .reference onDelete cascade allow ids =>
    let restriction := match ids with
      | some ids => [("objectTypes", array (ids.keys.map idJson))]
      | none => []
    object [("ReferenceField", object (start ++ indexed ++
      memberUnless (onDelete == .fail) "onDelete" (string onDelete.keyword) ++
      memberUnless (!cascade) "cascadeDelete" (.bool true) ++
      memberUnless (!allow) "allowDeleted" (.bool true) ++ restriction))]
  | .enumeration identifiers =>
    object [("EnumField", object (start ++ indexed ++
      [("identifiers", array (identifiers.map string))]))]

def FieldElement.toJson : FieldElement → Json
  | simple e => e.toJson
  | counter name id =>
    object [("CounterField", object [("name", string name), ("storageId", idJson id)])]
  | list name id element =>
    object [("ListField", object
      [("name", string name), ("storageId", idJson id), ("element", element.toJson)])]
  | set name id element =>
    object [("SetField", object
      [("name", string name), ("storageId", idJson id), ("element", element.toJson)])]
  | map name id key value =>
    object [("MapField", object
      [("name", string name), ("storageId", idJson id), ("key", key.toJson),
        ("value", value.toJson)])]

def CompositeIndex.toJson (i : CompositeIndex) : Json :=
  object [("name", string i.name), ("storageId", idJson i.id), ("fields", array (i.fields.map idJson))]

def ObjectTypeElement.toJson (e : ObjectTypeElement) : Json :=
  let indexes := match e.indexes with
    | some indexes => [("compositeIndexes", array (indexes.map CompositeIndex.toJson))]
    | none => []
  object ([("name", string e.name), ("storageId", idJson e.id),
    ("fields", array (e.fields.map FieldElement.toJson))] ++ indexes)

def Document.toJson (d : Document) : Json :=
  let listed (name : String) (types : Option (List ObjectTypeElement)) : List (String × Json) :=
    match types with
    | some types => [(name, array (types.map ObjectTypeElement.toJson))]
    | none => []
  object [("SchemaModel", object ([("formatVersion", integer d.version)] ++
    listed "ObjectType" d.objectTypes ++ listed "Object" d.objects))]

/-! ## Reading -/

open Json (record? required withDefault optional uint32? string? bool? list? alternative?)

def DeleteAction.ofKeyword? : String → Option DeleteAction
  | "EXCEPTION" => some fail
  | "UNREFERENCE" => some unreference
  | "DELETE" => some delete
  | "NOTHING" => some nothing
  | _ => none

/-- An action is a string, or an object whose only member has the action as name and null as value. -/
def DeleteAction.ofJson? : Json → Option DeleteAction
  | .string s => ofKeyword? s
  | .object [(s, .null)] => ofKeyword? s
  | _ => none

def SimpleElement.valueOfJson? (v : Json) : Option SimpleElement := do
  match ← v.record? ["name", "storageId", "type", "encodingSignature", "indexed"] with
  | [name, id, typeName, signature, indexed] =>
    let name ← optional string? name
    let id ← required uint32? id
    let typeName ← required string? typeName
    let signature ← withDefault 0 Json.int64? signature
    let indexed ← withDefault false bool? indexed
    return ⟨name, id, indexed, .value typeName signature⟩
  | _ => none

def SimpleElement.referenceOfJson? (v : Json) : Option SimpleElement := do
  match ← v.record? ["name", "storageId", "indexed", "onDelete", "cascadeDelete", "allowDeleted",
      "objectTypes"] with
  | [name, id, indexed, onDelete, cascade, allow, ids] =>
    let name ← optional string? name
    let id ← required uint32? id
    let indexed ← withDefault false bool? indexed
    let onDelete ← withDefault .fail DeleteAction.ofJson? onDelete
    let cascade ← withDefault false bool? cascade
    let allow ← withDefault false bool? allow
    let ids ← optional (list? uint32?) ids
    return ⟨name, id, indexed, .reference onDelete cascade allow (ids.map SortedSet.ofKeys)⟩
  | _ => none

def SimpleElement.enumerationOfJson? (v : Json) : Option SimpleElement := do
  match ← v.record? ["name", "storageId", "indexed", "identifiers"] with
  | [name, id, indexed, identifiers] =>
    let name ← optional string? name
    let id ← required uint32? id
    let indexed ← withDefault false bool? indexed
    let identifiers ← required (list? string?) identifiers
    return ⟨name, id, indexed, .enumeration identifiers⟩
  | _ => none

def SimpleElement.ofJson? (v : Json) : Option SimpleElement := do
  match ← v.alternative? with
  | ("SimpleField", v) => valueOfJson? v
  | ("ReferenceField", v) => referenceOfJson? v
  | ("EnumField", v) => enumerationOfJson? v
  | _ => none

def FieldElement.counterOfJson? (v : Json) : Option FieldElement := do
  match ← v.record? ["name", "storageId"] with
  | [name, id] => return .counter (← required string? name) (← required uint32? id)
  | _ => none

/-- The name, ID and sub-field of a list or set. -/
def FieldElement.collectionOfJson? (v : Json) : Option (String × StorageId × SimpleElement) := do
  match ← v.record? ["name", "storageId", "element"] with
  | [name, id, element] =>
    return (← required string? name, ← required uint32? id,
      ← required SimpleElement.ofJson? element)
  | _ => none

def FieldElement.mapOfJson? (v : Json) : Option FieldElement := do
  match ← v.record? ["name", "storageId", "key", "value"] with
  | [name, id, key, value] =>
    return .map (← required string? name) (← required uint32? id)
      (← required SimpleElement.ofJson? key) (← required SimpleElement.ofJson? value)
  | _ => none

def FieldElement.ofJson? (v : Json) : Option FieldElement := do
  match ← v.alternative? with
  | ("CounterField", v) => counterOfJson? v
  | ("ListField", v) => return let (name, id, element) := ← collectionOfJson? v; .list name id element
  | ("SetField", v) => return let (name, id, element) := ← collectionOfJson? v; .set name id element
  | ("MapField", v) => mapOfJson? v
  | _ => return .simple (← SimpleElement.ofJson? v)

def CompositeIndex.ofJson? (v : Json) : Option CompositeIndex := do
  match ← v.record? ["name", "storageId", "fields"] with
  | [name, id, fields] =>
    return ⟨← required string? name, ← required uint32? id, ← required (list? uint32?) fields⟩
  | _ => none

def ObjectTypeElement.ofJson? (v : Json) : Option ObjectTypeElement := do
  match ← v.record? ["name", "storageId", "fields", "compositeIndexes"] with
  | [name, id, fields, indexes] =>
    return ⟨← required string? name, ← required uint32? id,
      ← withDefault [] (list? FieldElement.ofJson?) fields,
      ← optional (list? CompositeIndex.ofJson?) indexes⟩
  | _ => none

def Document.ofJson? (v : Json) : Option Document := do
  match ← v.record? ["SchemaModel"] with
  | [some v] =>
    match ← v.record? ["formatVersion", "ObjectType", "Object"] with
    | [version, types, objects] =>
      return ⟨← withDefault 0 (Json.nat? Json.maxUInt64) version,
        ← optional (list? ObjectTypeElement.ofJson?) types,
        ← optional (list? ObjectTypeElement.ofJson?) objects⟩
    | _ => none
  | _ => none

def Document.ofBytes? (bytes : List UInt8) : Option Document := do
  match Utf8.decodeChars bytes with
  | .ok cs => ofJson? (← Json.parseChars cs)
  | .error _ => none

/-! ## Models -/

namespace Model

def chars (m : Model) : List Char := Json.prettyChars 0 m.toDocument.toJson

/-- The text of the current document of a model, valid or not. -/
def describe (m : Model) : String := String.ofList m.chars

def toBytes (m : Model) : List UInt8 := Utf8.encodeChars m.chars

/-- The valid model in some bytes. -/
def ofBytes (bytes : List UInt8) : Except SchemaError Model := do
  let some d := Document.ofBytes? bytes | throw .malformed
  let m ← d.toModel
  m.validate
  return m

/-- The valid model in the bytes of a source, which may fail to deliver them. -/
def readFrom (source : String) (bytes : Except String (List UInt8)) : Except SchemaError Model :=
  match bytes with
  | .ok bytes => ofBytes bytes
  | .error reason => .error (.transfer source reason)

/-- Hands the current document to a sink, in one write and a flush, each of which may fail. -/
def writeTo (m : Model) (write : List UInt8 → Except String Unit) (flush : Except String Unit) :
    Except SchemaError Unit :=
  match write m.toBytes, flush with
  | .error reason, _ => .error (.transfer "schema output" reason)
  | .ok (), .error reason => .error (.transfer "schema output" reason)
  | .ok (), .ok () => .ok ()

end Model

end Keyspace.Schema
