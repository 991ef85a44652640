import Keyspace.Overlay

/-!
Transactions: reads and writes against the data as it was when the transaction began. Each read records
the range of keys that its answer depends on, an ordered lookup also the keys it passed over; each write
goes into the overlay, where later reads see it, and into the batch that a commit carries out.
-/
namespace Keyspace

structure Transaction where
  /-- The version of the data that the transaction reads. -/
  startVersion : Nat
  view : Overlay
  writes : Batch
  reads : RangeSet
  /-- How long the transaction may stay open, in milliseconds. -/
  limit : Option Nat
  /-- How long the transaction has been open, in milliseconds. -/
  age : Nat
  deriving DecidableEq

namespace Transaction

def start (version : Nat) (data : Store) : Transaction :=
  ⟨version, .ofStore data, .empty, .empty, none, 0⟩

def elapse (t : Transaction) (ms : Nat) : Transaction := { t with age := t.age + ms }

/-- The limit that a transaction has outlived. -/
def expired? (t : Transaction) : Option Nat := t.limit.filter fun limit => decide (limit < t.age)

def setLimit (limit : Nat) (t : Transaction) : Transaction := { t with limit := some limit }

def checkLimit (t : Transaction) : Except StoreError Unit :=
  match t.expired? with
  | some limit => .error (.retry (.timedOut limit))
  | none => .ok ()

/-- Records that an answer depends on the keys of a range. -/
def depend (r : KeyRange) (t : Transaction) : Transaction := { t with reads := t.reads.add r }

/-- The transaction at hand, unless it has been open for too long. -/
def current : StoreM Transaction Transaction := do
  let t ← get
  StoreM.ofExcept t.checkLimit
  return t

instance : KeyValueStore Transaction where
  get? k := do
    let t ← current
    set (t.depend (.single k))
    return t.view.get? k
  firstAtLeast k := do
    let t ← current
    let found := t.view.firstAtLeast k
    let high : Bound := match found with
      | some e => .key e.1.successor
      | none => .top
    set (t.depend (← StoreM.ofExcept (KeyRange.between k high)))
    return found
  lastBelow b := do
    let t ← current
    let found := t.view.lastBelow b
    let low : Key := match found with
      | some e => e.1
      | none => []
    set (t.depend (← StoreM.ofExcept (KeyRange.between low b)))
    return found
  entryCount t := t.view.base.size + t.view.puts.size
  put k v := do
    let t ← current
    set { t with view := t.view.put k v, writes := t.writes.put k v }
  remove k := do
    let t ← current
    set { t with view := t.view.remove k, writes := t.writes.remove k }
  removeRange low high := do
    let r ← StoreM.ofExcept (KeyRange.between low high)
    let t ← current
    set { t with view := t.view.removeRange r, writes := t.writes.removeRange r }
  adjust k amount := do
    let t ← current
    set { t with view := t.view.adjust k amount, writes := t.writes.adjust k amount }

end Transaction

end Keyspace
