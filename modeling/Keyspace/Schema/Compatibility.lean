import Keyspace.BigEndian
import Keyspace.Digest.Sha256
import Keyspace.Schema.Model
import Keyspace.Text.Utf8

/-!
Compatible schemas: data written under one can be read under the other. Names and delete settings do not
count. What counts is also written out as bytes, which compatible schemas have in common, and whose digest
gives the compatibility hash and the version number of a schema that names none.
-/
namespace Keyspace.Schema

/-! ## Compatibility -/

namespace SimpleKind

def compatible : SimpleKind → SimpleKind → Bool
  | value t s, value t' s' => t == t' && s == s'
  | reference _ _ _ ids, reference _ _ _ ids' => ids == ids'
  | enumeration is, enumeration is' => is == is'
  | _, _ => false

end SimpleKind

def SimpleField.compatible (f g : SimpleField) : Bool :=
  f.id == g.id && f.indexed == g.indexed && f.kind.compatible g.kind

/-- Whether two lists have the same length and are related item by item. -/
def pairwise {α : Type} (p : α → α → Bool) (as bs : List α) : Bool :=
  as.length == bs.length && (as.zip bs).all fun (a, b) => p a b

/-- Whether two maps have the same keys and compatible values. -/
def compatibleMaps {α : Type} (p : α → α → Bool) (as bs : SortedMap StorageId α) : Bool :=
  pairwise (fun a b => a.1 == b.1 && p a.2 b.2) as.toList bs.toList

def Field.compatible : Field → Field → Bool
  | .simple f, .simple g => f.compatible g
  | .counter f, .counter g => f.id == g.id
  | .complex f, .complex g =>
    f.id == g.id && f.collection == g.collection &&
      pairwise SimpleField.compatible f.subFields g.subFields
  | _, _ => false

def CompositeIndex.compatible (i j : CompositeIndex) : Bool := i.id == j.id && i.fields == j.fields

def ObjectType.compatible (t u : ObjectType) : Bool :=
  t.id == u.id && compatibleMaps Field.compatible t.fields u.fields &&
    compatibleMaps CompositeIndex.compatible t.indexes u.indexes

def Model.compatible (m n : Model) : Bool :=
  compatibleMaps ObjectType.compatible m.objectTypes n.objectTypes

/-! ## The bytes of what counts -/

namespace HashInput

def ofBool (b : Bool) : List UInt8 := [if b then 1 else 0]

def ofUInt32 (n : UInt32) : List UInt8 := BigEndian.encode32 n

def ofInt64 (n : Int64) : List UInt8 := BigEndian.encode64 n.toUInt64

/-- A count, modulo `2 ^ 32`. -/
def ofCount (n : Nat) : List UInt8 := ofUInt32 (UInt32.ofNat n)

/-- The bytes of a string after their count, so that adjacent strings cannot run together. -/
def ofString (s : String) : List UInt8 :=
  let bytes := Utf8.encode s
  ofCount bytes.length ++ bytes

def ofMap {α : Type} (f : α → List UInt8) (m : SortedMap StorageId α) : List UInt8 :=
  ofCount m.size ++ m.values.flatMap f

def hash (bytes : List UInt8) : Int64 :=
  (UInt64.ofNat (BigEndian.decode ((Sha256.digest bytes).take 8))).toInt64

end HashInput

open HashInput

def SimpleKind.hashInput : SimpleKind → List UInt8
  | value typeName signature => ofString typeName ++ ofInt64 signature
  | reference _ _ _ none => ofBool false
  | reference _ _ _ (some ids) => ofBool true ++ ofCount ids.size ++ ids.keys.flatMap ofUInt32
  | enumeration identifiers => ofCount identifiers.length ++ identifiers.flatMap ofString

def SimpleField.hashInput (f : SimpleField) : List UInt8 :=
  ofString f.fieldKind.elementName ++ ofUInt32 f.id ++ ofBool f.indexed ++ f.kind.hashInput

def Field.hashInput : Field → List UInt8
  | .simple f => f.hashInput
  | .counter f => ofString FieldKind.counter.elementName ++ ofUInt32 f.id
  | .complex f =>
    ofString f.collection.fieldKind.elementName ++ ofUInt32 f.id ++
      f.subFields.flatMap SimpleField.hashInput

def CompositeIndex.hashInput (i : CompositeIndex) : List UInt8 :=
  ofUInt32 i.id ++ ofCount i.fields.length ++ i.fields.flatMap ofUInt32

def ObjectType.hashInput (t : ObjectType) : List UInt8 :=
  ofUInt32 t.id ++ ofMap Field.hashInput t.fields ++ ofMap CompositeIndex.hashInput t.indexes

def Model.hashInput (m : Model) : List UInt8 := ofMap ObjectType.hashInput m.objectTypes

namespace Model

/-- A hash that compatible schemas have in common. -/
def compatibilityHash (m : Model) : Int64 := HashInput.hash m.hashInput

/-- A version number from `1` to `2 ^ 31 - 1` that compatible schemas have in common. -/
def autogeneratedVersion (m : Model) : UInt32 :=
  let version := (m.compatibilityHash.toUInt64 >>> 33).toUInt32
  if version = 0 then 1 else version

end Model

end Keyspace.Schema
