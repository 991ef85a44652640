import Keyspace.Batch
import Keyspace.RangeSet.Lookup

/-!
Uncommitted writes laid over a store. The overlay keeps the values put and the ranges cleared, and reads
through both into the store below, which it never changes.
-/
namespace Keyspace

/-- A store below, the ranges of it that are cleared, and the values put on top. -/
structure Overlay where
  base : Store
  puts : Store
  cleared : RangeSet
  deriving DecidableEq

namespace Overlay

def ofStore (base : Store) : Overlay := ⟨base, .empty, .empty⟩

/-- The value under a key: a value put, else nothing where cleared, else the value below. -/
def get? (o : Overlay) (k : Key) : Option Value :=
  match o.puts.get? k with
  | some v => some v
  | none => if o.cleared.contains k then none else o.base.get? k

/-- The first of some ascending entries outside the cleared ranges; a cleared range is jumped over. -/
def firstVisible (cleared : RangeSet) : List Entry → Option Entry
  | [] => none
  | e :: es =>
    match cleared.covering? e.1 with
    | none => some e
    | some r => firstVisible cleared (es.dropWhile fun x => x.1.isBelow r.high)
termination_by es => es.length
decreasing_by
  have := (List.dropWhile_sublist (fun x : Entry => x.1.isBelow r.high) (l := es)).length_le
  simp only [List.length_cons]
  omega

/-- The first of some descending entries outside the cleared ranges; a cleared range is jumped over. -/
def lastVisible (cleared : RangeSet) : List Entry → Option Entry
  | [] => none
  | e :: es =>
    match cleared.covering? e.1 with
    | none => some e
    | some r => lastVisible cleared (es.dropWhile fun x => !x.1.isBelow (.key r.low))
termination_by es => es.length
decreasing_by
  have := (List.dropWhile_sublist (fun x : Entry => !x.1.isBelow (.key r.low)) (l := es)).length_le
  simp only [List.length_cons]
  omega

/-- The entry with the least key at or above `k`: the nearer of the values put and what is seen below. -/
def firstAtLeast (o : Overlay) (k : Key) : Option Entry :=
  let below := firstVisible o.cleared (o.base.toList.dropWhile fun e => decide (e.1 < k))
  match o.puts.firstAtLeast k, below with
  | some e, some f => if f.1 < e.1 then some f else some e
  | some e, none => some e
  | none, f => f

/-- The entry with the greatest key below `b`: the nearer of the values put and what is seen below. -/
def lastBelow (o : Overlay) (b : Bound) : Option Entry :=
  let below := lastVisible o.cleared (o.base.toList.reverse.dropWhile fun e => !e.1.isBelow b)
  match o.puts.lastBelow b, below with
  | some e, some f => if e.1 < f.1 then some f else some e
  | some e, none => some e
  | none, f => f

def put (o : Overlay) (k : Key) (v : Value) : Overlay := { o with puts := o.puts.insert k v }

def remove (o : Overlay) (k : Key) : Overlay :=
  { o with puts := o.puts.erase k, cleared := o.cleared.add (.single k) }

def removeRange (o : Overlay) (r : KeyRange) : Overlay :=
  { o with puts := o.puts.removeRange r, cleared := o.cleared.add r }

def adjust (o : Overlay) (k : Key) (amount : Int64) : Overlay :=
  match (o.get? k).bind Counter.decode? with
  | some n => o.put k (Counter.encode (n + amount))
  | none => o

end Overlay

end Keyspace
