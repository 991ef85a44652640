import Keyspace.Schema.Model
import Keyspace.Text.Quoted

/-!
Differences between two versions of a schema, as a tree of texts. They tell what turns the second version
into the first: items of the first alone are added, items of the second alone are removed. Unlike
compatibility, differences also cover names and delete settings.
-/
namespace Keyspace.Schema

inductive Diff where
  | node (text : String) (details : List Diff)

namespace Diff

def text : Diff → String
  | node text _ => text

def details : Diff → List Diff
  | node _ details => details

def leaf (text : String) : Diff := node text []

mutual

/-- A difference on a line, and its explanation on the lines below, two spaces further right. -/
def renderOne (depth : Nat) : Diff → List Char
  | node text details =>
    List.replicate (2 * depth) ' ' ++ text.toList ++ '\n' :: renderAll (depth + 1) details

def renderAll (depth : Nat) : List Diff → List Char
  | [] => []
  | d :: ds => renderOne depth d ++ renderAll depth ds

end

def render (ds : List Diff) : String := String.ofList (renderAll 0 ds)

/-- The difference of a property, if there is one. -/
def ofProperty {α : Type} [DecidableEq α] (property : String) (written : α → String) (new old : α) :
    List Diff :=
  if new = old then []
  else [leaf ("changed " ++ property ++ " from " ++ written old ++ " to " ++ written new)]

def explained (text : String) : List Diff → List Diff
  | [] => []
  | details => [node text details]

end Diff

def writeBool (b : Bool) : String := if b then "true" else "false"

def writeId (id : StorageId) : String := toString id.toNat

def writeIds (ids : List StorageId) : String := Text.bracketed (ids.map writeId)

def writeIdSet : Option (SortedSet StorageId) → String
  | none => "None"
  | some ids => "Some(\x7b" ++ ", ".intercalate (ids.keys.map writeId) ++ "\x7d)"

def kindChange (new old : FieldKind) : List Diff :=
  [.leaf ("changed field kind from " ++ old.description ++ " to " ++ new.description)]

def SimpleField.diff (new old : SimpleField) : List Diff :=
  Diff.ofProperty "name" Text.quote new.name old.name ++
    Diff.ofProperty "indexed" writeBool new.indexed old.indexed ++
    match new.kind, old.kind with
    | .value t s, .value t' s' =>
      Diff.ofProperty "type" Text.quote t t' ++
        Diff.ofProperty "encoding signature" (fun s => toString (Int64.toInt s)) s s'
    | .reference action cascade allow ids, .reference action' cascade' allow' ids' =>
      Diff.ofProperty "delete action" DeleteAction.description action action' ++
        Diff.ofProperty "cascade delete" writeBool cascade cascade' ++
        Diff.ofProperty "allow deleted" writeBool allow allow' ++
        Diff.ofProperty "object types" writeIdSet ids ids'
    | .enumeration is, .enumeration is' => Diff.ofProperty "identifiers" Text.quoteList is is'
    | _, _ => kindChange new.fieldKind old.fieldKind

/-- The difference of two sub-fields at one place. -/
def SimpleField.subFieldDiff (new old : SimpleField) : List Diff :=
  if new.id ≠ old.id then
    [.leaf ("changed " ++ nameItem "sub-field" new.name ++ " storage ID from " ++ writeId old.id ++
      " to " ++ writeId new.id)]
  else Diff.explained ("changed " ++ nameItem "sub-field" new.name) (new.diff old)

def Field.diff : Field → Field → List Diff
  | .simple new, .simple old => new.diff old
  | .counter new, .counter old => Diff.ofProperty "name" Text.quote new.name old.name
  | .complex new, .complex old =>
    if new.collection = old.collection then
      Diff.ofProperty "name" Text.quote new.name old.name ++
        (new.subFields.zip old.subFields).flatMap fun (s, s') => s.subFieldDiff s'
    else kindChange new.collection.fieldKind old.collection.fieldKind
  | new, old => kindChange new.kind old.kind

def CompositeIndex.diff (new old : CompositeIndex) : List Diff :=
  Diff.ofProperty "name" Text.quote new.name old.name ++
    Diff.ofProperty "indexed fields" writeIds new.fields old.fields

/-- The differences of two maps of items, in order of the IDs they are kept under. -/
def diffMaps {α : Type} (describe : α → String) (diff : α → α → List Diff)
    (new old : SortedMap StorageId α) : List Diff :=
  (SortedSet.ofKeys (new.keys ++ old.keys)).keys.flatMap fun id =>
    match new.get? id, old.get? id with
    | none, some b => [.leaf ("removed " ++ describe b)]
    | some a, none => [.leaf ("added " ++ describe a)]
    | some a, some b => Diff.explained ("changed " ++ describe b) (diff a b)
    | none, none => []

def ObjectType.diff (new old : ObjectType) : List Diff :=
  Diff.ofProperty "name" Text.quote new.name old.name ++
    diffMaps Field.describe Field.diff new.fields old.fields ++
    diffMaps CompositeIndex.describe CompositeIndex.diff new.indexes old.indexes

def Model.diff (new old : Model) : List Diff :=
  diffMaps ObjectType.describe ObjectType.diff new.objectTypes old.objectTypes

end Keyspace.Schema
