import Keyspace.Counter
import Keyspace.SortedMap

/-!
Ordered stores of byte keys. `Store` is the plain one, a map in memory; the classes `KeyValueReader` and
`KeyValueStore` are what it has in common with transactions, snapshots and the atomic store, whose reads
and writes can fail and leave a trace in the state they run on.
-/
namespace Keyspace

/-- An action on a state `σ` that may fail; the state is kept either way. -/
abbrev StoreM (σ α : Type) := ExceptT StoreError (StateM σ) α

namespace StoreM

variable {σ τ α : Type}

/-- Fails or returns as a pure result does. -/
def ofExcept (r : Except StoreError α) : StoreM σ α := fun s => (r, s)

/-- Runs an action on a part of the state. -/
def onPart (part : τ → σ) (update : τ → σ → τ) (x : StoreM σ α) : StoreM τ α := fun t =>
  let (r, s) := x (part t)
  (r, update t s)

def onFst (x : StoreM σ α) : StoreM (σ × τ) α := onPart (·.1) (fun t s => (s, t.2)) x

end StoreM

/-- Reading by key order. -/
class KeyValueReader (σ : Type) where
  get? : Key → StoreM σ (Option Value)
  /-- The entry with the least key at or above a key. -/
  firstAtLeast : Key → StoreM σ (Option Entry)
  /-- The entry with the greatest key below a bound. -/
  lastBelow : Bound → StoreM σ (Option Entry)
  encodeCounter : Int64 → StoreM σ Value := fun n => pure (Counter.encode n)
  decodeCounter : Value → StoreM σ Int64 := fun v => StoreM.ofExcept (Counter.decode v)
  /-- No walk over the store meets more entries than this. -/
  entryCount : σ → Nat

/-- Reading and writing by key order. -/
class KeyValueStore (σ : Type) extends KeyValueReader σ where
  put : Key → Value → StoreM σ Unit
  remove : Key → StoreM σ Unit
  /-- Removes the keys between two bounds, which have to be in order. -/
  removeRange : Key → Bound → StoreM σ Unit
  /-- Adds to the counter under a key; where no counter is stored, nothing changes. -/
  adjust : Key → Int64 → StoreM σ Unit

abbrev Store := SortedMap Key Value

namespace Store

def firstAtLeast (m : Store) (k : Key) : Option Entry := m.toList.find? fun e => decide (k ≤ e.1)

def lastBelow (m : Store) (b : Bound) : Option Entry := m.toList.reverse.find? fun e => e.1.isBelow b

def removeRange (m : Store) (r : KeyRange) : Store := m.filter fun e => !r.contains e.1

def adjust (m : Store) (k : Key) (amount : Int64) : Store :=
  match (m.get? k).bind Counter.decode? with
  | some n => m.insert k (Counter.encode (n + amount))
  | none => m

instance : KeyValueStore Store where
  get? k := do return (← get).get? k
  firstAtLeast k := do return (← get).firstAtLeast k
  lastBelow b := do return (← get).lastBelow b
  entryCount m := m.size
  put k v := modify (·.insert k v)
  remove k := modify (·.erase k)
  removeRange low high := do
    let r ← StoreM.ofExcept (KeyRange.between low high)
    modify (removeRange · r)
  adjust k amount := modify (adjust · k amount)

end Store

end Keyspace
