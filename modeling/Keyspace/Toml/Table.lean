import Keyspace.Json
import Keyspace.Toml.Text

/-!
Tables under construction. The lines of a document open tables and add entries to them, but a table that
was defined in one way cannot be defined again or be extended in another way. A finished table is a JSON
object.
-/
namespace Keyspace.Toml

inductive Origin where
  /-- By a header of its own. -/
  | header
  /-- By the header of a table inside it. -/
  | implied
  /-- By a dotted key. -/
  | dotted
  deriving DecidableEq

inductive Item where
  /-- A value, to which nothing can be added. -/
  | value (v : Json)
  | table (origin : Origin) (entries : List (String × Item))
  /-- A list of tables of which only the last one can still change. -/
  | tables (finished : List Json) (last : List (String × Item))

abbrev Entries := List (String × Item)

mutual

def Item.toJson : Item → Json
  | .value v => v
  | .table _ entries => .object (membersOf entries)
  | .tables finished last => .array (finished ++ [.object (membersOf last)])

def membersOf : List (String × Item) → List (String × Json)
  | [] => []
  | (k, item) :: entries => (k, item.toJson) :: membersOf entries

end

namespace Entries

def put (name : String) (item : Item) : Entries → Entries
  | [] => [(name, item)]
  | e :: es => if e.1 = name then (name, item) :: es else e :: put name item es

/-- Changes the table that a path leads to. Tables that are not there come about on the way; a dotted key
does not enter a table with a header of its own. -/
def changeAt (dotted : Bool) (change : Origin → Entries → Option Entries) :
    List String → Origin → Entries → Option Entries
  | [], origin, es => change origin es
  | name :: path, _, es =>
    match es.lookup name with
    | none => do
      let origin := if dotted then .dotted else .implied
      return put name (.table origin (← changeAt dotted change path origin [])) es
    | some (.value _) => none
    | some (.table origin inner) => do
      if dotted ∧ origin = .header then none
      return put name (.table origin (← changeAt dotted change path origin inner)) es
    | some (.tables finished last) => do
      return put name (.tables finished (← changeAt dotted change path .header last)) es

/-- Adds a value under a key that is not in use. A dotted key adds only to a table of dotted keys. -/
def assign (key : KeyPath) (v : Json) : Entries → Option Entries :=
  let expected : Origin := if key.parents.isEmpty then .header else .dotted
  changeAt true (fun origin es =>
    if origin = expected ∧ (es.lookup key.name).isNone then some (es ++ [(key.name, .value v)])
    else none) key.parents .header

/-- Opens the table of a header, which may be there only because of a table inside it. -/
def openTable (key : KeyPath) : Entries → Option Entries :=
  changeAt false (fun _ es =>
    match es.lookup key.name with
    | none => some (es ++ [(key.name, .table .header [])])
    | some (.table .implied inner) => some (put key.name (.table .header inner) es)
    | _ => none) key.parents .header

/-- Adds a table to the list of tables of a header. -/
def openNext (key : KeyPath) : Entries → Option Entries :=
  changeAt false (fun _ es =>
    match es.lookup key.name with
    | none => some (es ++ [(key.name, .tables [] [])])
    | some (.tables finished last) =>
      some (put key.name (.tables (finished ++ [.object (membersOf last)]) []) es)
    | _ => none) key.parents .header

end Entries

end Keyspace.Toml
