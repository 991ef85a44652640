import Keyspace.Store
import Keyspace.RangeSet.Update

/-!
Batches of writes: ranges removed, values put and counters adjusted. A later write replaces earlier ones
on the same keys, so that the removals, then the puts, then the adjustments come to the same as the
writes one by one.
-/
namespace Keyspace

@[ext] structure Batch where
  removes : RangeSet
  puts : SortedMap Key Value
  adjusts : SortedMap Key Int64
  deriving DecidableEq

namespace Batch

def empty : Batch := ⟨.empty, .empty, .empty⟩

instance : Inhabited Batch := ⟨empty⟩

def isEmpty (b : Batch) : Bool := b.removes.isEmpty && b.puts.isEmpty && b.adjusts.isEmpty

def put (b : Batch) (k : Key) (v : Value) : Batch :=
  { b with puts := b.puts.insert k v, adjusts := b.adjusts.erase k }

def removeRange (b : Batch) (r : KeyRange) : Batch :=
  if r.isEmpty then b
  else
    { removes := b.removes.add r
      puts := b.puts.filter fun e => !r.contains e.1
      adjusts := b.adjusts.filter fun e => !r.contains e.1 }

def remove (b : Batch) (k : Key) : Batch := b.removeRange (.single k)

/-- Adds to the amount by which the counter under a key is adjusted; amounts wrap. -/
def adjust (b : Batch) (k : Key) (amount : Int64) : Batch :=
  { b with adjusts := b.adjusts.insert k ((b.adjusts.get? k).getD 0 + amount) }

/-- The keys that a batch may change. -/
def written (b : Batch) : RangeSet :=
  b.removes.union (.ofList ((b.puts.keys ++ b.adjusts.keys).map .single))

/-- Writes a batch into a store, one write after the other. -/
def applyTo {σ : Type} [KeyValueStore σ] (b : Batch) : StoreM σ Unit := do
  for r in b.removes.ranges.toList do
    KeyValueStore.removeRange r.low r.high
  for e in b.puts.toList do
    KeyValueStore.put e.1 e.2
  for e in b.adjusts.toList do
    KeyValueStore.adjust e.1 e.2

def apply (b : Batch) (m : Store) : Store :=
  let removed := b.removes.ranges.toList.foldl Store.removeRange m
  let put := b.puts.toList.foldl (fun m e => m.insert e.1 e.2) removed
  b.adjusts.toList.foldl (fun m e => m.adjust e.1 e.2) put

def describe (b : Batch) : String :=
  "Writes[removes=" ++ b.removes.describe ++ ", puts=" ++ toString b.puts.size ++
    ", adjusts=" ++ toString b.adjusts.size ++ "]"

end Batch

inductive Write where
  | put (k : Key) (v : Value)
  | remove (k : Key)
  | removeRange (low : Key) (high : Bound)
  | adjust (k : Key) (amount : Int64)
  deriving DecidableEq

namespace Write

def record (w : Write) (b : Batch) : Except StoreError Batch :=
  match w with
  | put k v => .ok (b.put k v)
  | remove k => .ok (b.remove k)
  | removeRange low high => (KeyRange.between low high).map b.removeRange
  | adjust k amount => .ok (b.adjust k amount)

def perform {σ : Type} [KeyValueStore σ] : Write → StoreM σ Unit
  | put k v => KeyValueStore.put k v
  | remove k => KeyValueStore.remove k
  | removeRange low high => KeyValueStore.removeRange low high
  | adjust k amount => KeyValueStore.adjust k amount

end Write

end Keyspace
