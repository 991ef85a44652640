import Keyspace.Json

/-!
From JSON values to typed ones. A record is written as an object with its fields as members, or as an
array of its fields in order; members that are absent take a default where the field has one.
-/
namespace Keyspace.Json

def nat? (limit : Nat) : Json → Option Nat
  | integer n => if 0 ≤ n ∧ n ≤ limit then some n.toNat else none
  | _ => none

def byte? (v : Json) : Option UInt8 := (v.nat? 255).map UInt8.ofNat

/-- The greatest numbers of 32 and of 64 bits. -/
def maxUInt32 : Nat := 4294967295

def maxUInt64 : Nat := 18446744073709551615

def uint32? (v : Json) : Option UInt32 := (v.nat? maxUInt32).map UInt32.ofNat

def int64? : Json → Option Int64
  | integer n =>
    if Int64.minValue.toInt ≤ n ∧ n ≤ Int64.maxValue.toInt then some (Int64.ofInt n) else none
  | _ => none

def bool? : Json → Option Bool
  | bool b => some b
  | _ => none

def string? : Json → Option String
  | string s => some s
  | _ => none

def list? {α : Type} (item : Json → Option α) : Json → Option (List α)
  | array vs => vs.mapM item
  | _ => none

/-- A value, or null for its absence. -/
def nullable? {α : Type} (item : Json → Option α) : Json → Option (Option α)
  | null => some none
  | v => (item v).map some

/-- The values of the members of one name. -/
def membersNamed (name : String) (ms : List (String × Json)) : List Json :=
  (ms.filter fun m => m.1 == name).map (·.2)

/-- Looks up fields by name; none may occur twice. -/
def fieldsByName? (names : List String) (ms : List (String × Json)) : Option (List (Option Json)) :=
  names.mapM fun name =>
    match membersNamed name ms with
    | [] => some none
    | [v] => some (some v)
    | _ => none

/-- Takes fields in order; later ones may be absent. -/
def fieldsInOrder? : List String → List Json → Option (List (Option Json))
  | names, [] => some (names.map fun _ => none)
  | [], _ :: _ => none
  | _ :: names, v :: vs => (fieldsInOrder? names vs).map (some v :: ·)

/-- The fields of a record that has no others, each of them if it is present. -/
def record? (names : List String) : Json → Option (List (Option Json))
  | object ms => if ms.all fun m => names.contains m.1 then fieldsByName? names ms else none
  | array vs => fieldsInOrder? names vs
  | _ => none

/-- The fields of a record that may have others. -/
def openRecord? (names : List String) : Json → Option (List (Option Json))
  | object ms => fieldsByName? names ms
  | array vs => fieldsInOrder? names vs
  | _ => none

def required {α : Type} (read : Json → Option α) (field : Option Json) : Option α := field.bind read

def withDefault {α : Type} (default : α) (read : Json → Option α) : Option Json → Option α
  | none => some default
  | some v => read v

/-- A field that may be absent or null. -/
def optional {α : Type} (read : Json → Option α) : Option Json → Option (Option α) :=
  withDefault none (nullable? read)

/-- One of several alternatives: an object whose only member is named for the alternative. -/
def alternative? : Json → Option (String × Json)
  | object [m] => some m
  | _ => none

end Keyspace.Json
