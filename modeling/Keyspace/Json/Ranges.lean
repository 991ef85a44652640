import Keyspace.Batch
import Keyspace.Json.Decode

/-!
Ranges, range sets and batches as JSON. A key is the list of its bytes and the end of the keyspace is
null. Reading checks the bounds of every range and normalises every set, so that a document in any order
and with any overlaps gives a proper set.
-/
namespace Keyspace

namespace Json

def ofKey (k : Key) : Json := array (k.map fun b => integer b.toNat)

def key? : Json → Option Key := list? byte?

def ofBound : Bound → Json
  | .key k => ofKey k
  | .top => null

def bound? : Json → Option Bound
  | null => some .top
  | v => (key? v).map .key

end Json

namespace KeyRange

def toJson (r : KeyRange) : Json := .object [("min", .ofKey r.low), ("max", .ofBound r.high)]

def ofBounds? (low high : Json) : Option KeyRange := do between? (← low.key?) (← high.bound?)

/-- As a list a range has both bounds; as an object it may leave out the upper one. -/
def ofJson? : Json → Option KeyRange
  | .array [low, high] => ofBounds? low high
  | .object ms => do
    match ← (Json.object ms).record? ["min", "max"] with
    | [some low, high] => ofBounds? low (high.getD .null)
    | _ => none
  | _ => none

end KeyRange

namespace RangeSet

def toJson (s : RangeSet) : Json := .array (s.ranges.toList.map KeyRange.toJson)

def ofJson? (v : Json) : Option RangeSet := (v.list? KeyRange.ofJson?).map ofList

end RangeSet

namespace Batch

/-- The names of the members of an object cannot be keys, so only empty maps have a JSON form. -/
def toJson? (b : Batch) : Option Json :=
  if b.puts.isEmpty && b.adjusts.isEmpty then
    some (.object [("removes", b.removes.toJson), ("puts", .object []), ("adjusts", .object [])])
  else none

/-- Reads a batch; members with other names mean nothing. -/
def ofJson? (v : Json) : Option Batch := do
  match ← v.openRecord? ["removes", "puts", "adjusts"] with
  | [some removes, some (.object []), some (.object [])] =>
    return ⟨← RangeSet.ofJson? removes, .empty, .empty⟩
  | _ => none

end Batch

end Keyspace
