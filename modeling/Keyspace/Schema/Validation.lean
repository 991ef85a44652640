import Keyspace.Schema.Registry
import Keyspace.Text.Blank

/-!
The checks that make a schema valid: names, storage IDs, the sub-fields of collections, the fields of
indexes, unique names, and the use of storage IDs across the schema. The first fault found is reported.
-/
namespace Keyspace.Schema

def startsName (c : Char) : Bool := c.isAlpha || c == '_' || c == '$'

def continuesName (c : Char) : Bool := startsName c || c.isDigit

/-- Names have ASCII letters, digits, underscores and dollar signs, and do not start with a digit. -/
def isValidName (name : String) : Bool :=
  match name.toList with
  | [] => false
  | c :: cs => startsName c && cs.all continuesName

def checkName (name what : String) : Except SchemaError Unit :=
  if isValidName name then .ok () else .error (.invalid (.invalidName name what))

def checkStorageId (id : StorageId) (what : String) : Except SchemaError Unit :=
  if 1 ≤ id ∧ id ≤ maxStorageId then .ok () else .error (.invalid (.invalidStorageId id what))

/-- Checks the identifiers of an enumeration; none may be among those seen before. -/
def checkIdentifiers (what : String) : List String → List String → Except SchemaError Unit
  | _, [] => .ok ()
  | seen, word :: words => do
    checkName word ("identifier of " ++ what)
    if seen.contains word then throw (.duplicateName (.identifier what word))
    checkIdentifiers what (word :: seen) words

def SimpleKind.validate (what : String) : SimpleKind → Except SchemaError Unit
  | value typeName _ =>
    if Text.allBlank typeName then .error (.invalid (.emptyTypeName what)) else .ok ()
  | reference _ _ _ none => .ok ()
  | reference _ _ _ (some ids) =>
    ids.keys.forM fun id => checkStorageId id ("object type restriction of " ++ what)
  | enumeration identifiers => checkIdentifiers what [] identifiers

def SimpleField.validate (f : SimpleField) : Except SchemaError Unit := do
  let what := nameItem f.fieldKind.description f.name
  checkName f.name what
  checkStorageId f.id what
  f.kind.validate what

def ComplexField.validate (f : ComplexField) : Except SchemaError Unit := do
  let what := nameItem f.collection.fieldKind.description f.name
  checkName f.name what
  checkStorageId f.id what
  let expected := f.collection.subFieldNames
  let actual := f.subFields.map (·.name)
  if actual != expected then throw (.invalid (.subFieldNames what expected actual))
  f.subFields.forM fun s => do
    s.validate
    if s.id = f.id then throw (.invalid (.parentStorageId s.name what f.id))

def Field.validate : Field → Except SchemaError Unit
  | .simple f => f.validate
  | .counter f => do
    let what := nameItem FieldKind.counter.description f.name
    checkName f.name what
    checkStorageId f.id what
  | .complex f => f.validate

def checkIndexFields (what : String) : List StorageId → List StorageId → Except SchemaError Unit
  | _, [] => .ok ()
  | seen, id :: ids =>
    if seen.contains id then .error (.invalid (.repeatedIndexField what id))
    else checkIndexFields what (id :: seen) ids

def CompositeIndex.validate (i : CompositeIndex) : Except SchemaError Unit := do
  let what := nameItem "composite index" i.name
  checkName i.name what
  checkStorageId i.id what
  if i.fields.length < minIndexFields ∨ maxIndexFields < i.fields.length then
    throw (.invalid (.indexArity what i.fields.length))
  checkIndexFields what [] i.fields

/-- Checks items one after the other; none may have a name among those seen before. -/
def checkAll {α : Type} (check : StorageId → α → Except SchemaError Unit) (name : α → String)
    (duplicate : String → Duplicate) :
    List String → List (StorageId × α) → Except SchemaError Unit
  | _, [] => .ok ()
  | seen, (key, a) :: items => do
    check key a
    if seen.contains (name a) then throw (.duplicateName (duplicate (name a)))
    checkAll check name duplicate (name a :: seen) items

def checkKey (key id : StorageId) (item : String) : Except SchemaError Unit :=
  if key = id then .ok () else .error (.invalid (.keyedUnder item key))

def ObjectType.validate (t : ObjectType) : Except SchemaError Unit := do
  let what := nameItem "object type" t.name
  checkName t.name what
  checkStorageId t.id what
  checkAll (fun key f => do
    checkKey key f.id (f.describe ++ " of " ++ what)
    f.validate) Field.name (.field what) [] t.fields.toList
  checkAll (fun key i => do
    checkKey key i.id (i.describe ++ " of " ++ what)
    i.validate) CompositeIndex.name (.index what) [] t.indexes.toList

def Model.validate (m : Model) : Except SchemaError Unit := do
  checkAll (fun key t => do
    checkKey key t.id t.describe
    t.validate) ObjectType.name .objectType [] m.objectTypes.toList
  let _ ← Registry.ofModel m

end Keyspace.Schema
