import Keyspace.PartitionPoint
import Keyspace.RangeSet

/-!
Looking up keys in a range set. As the ranges are in order, each lookup is a binary search.
-/
namespace Keyspace

namespace RangeSet

/-- The first range that ends above `k`: the one that holds `k`, or else the next one. -/
def atOrAfter? (s : RangeSet) (k : Key) : Option KeyRange :=
  s.ranges[partitionPoint s.ranges fun r => !k.isBelow r.high]?

/-- The last range that starts below `b`. -/
def before? (s : RangeSet) (b : Bound) : Option KeyRange :=
  match partitionPoint s.ranges fun r => r.low.isBelow b with
  | 0 => none
  | n + 1 => s.ranges[n]?

def covering? (s : RangeSet) (k : Key) : Option KeyRange := (s.atOrAfter? k).filter (·.contains k)

def contains (s : RangeSet) (k : Key) : Bool := (s.covering? k).isSome

end RangeSet

end Keyspace
