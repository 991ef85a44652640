import Keyspace.Store
import Keyspace.RangeSet.Algebra
import Keyspace.RangeSet.Lookup

/-!
Walks over the entries of a store whose keys lie in a range set. A walk fetches one entry at a time and
jumps over what lies between two ranges. It holds no part of the store: each fetch looks at the store as
it then is, which may have changed since the last one.
-/
namespace Keyspace

/-- A walk over the keys of a range set. Its cursor cuts the keyspace in two: a forward walk goes on at
or above the cut, a reverse walk below it, and a walk that has ended has nothing left on its side. -/
structure Scan where
  ranges : RangeSet
  reverse : Bool
  cursor : Bound
  /-- An entry that was fetched ahead. -/
  fetched : Option Entry
  deriving DecidableEq

namespace Scan

/-- The cut with no key on the side that a walk goes on. -/
def ended (reverse : Bool) : Bound := if reverse then .key [] else .top

/-- The cut with every key on the side that a walk goes on. -/
def beginning (reverse : Bool) : Bound := if reverse then .top else .key []

/-- The cut just before a key in the direction of a walk. -/
def before (reverse : Bool) (k : Key) : Bound := if reverse then .key k.successor else .key k

/-- The cut just after a key in the direction of a walk. -/
def after (reverse : Bool) (k : Key) : Bound := if reverse then .key k else .key k.successor

/-- Moves a walk so that it goes on at the target, and drops an entry fetched ahead. -/
def seek (s : Scan) (target : Key) : Scan :=
  { s with cursor := before s.reverse target, fetched := none }

/-- A walk over a range set, from a start key on if there is one. -/
def create (ranges : RangeSet) (start : Option Key) (reverse : Bool) : Scan :=
  let s : Scan := ⟨ranges, reverse, beginning reverse, none⟩
  match start with
  | some k => s.seek k
  | none => s

section Fetch

variable {σ : Type} [KeyValueReader σ]

/-- The first entry at or above `k` in a list of ascending ranges. -/
def firstIn (k : Key) : List KeyRange → StoreM σ (Option Entry)
  | [] => return none
  | r :: rs =>
    if k.isBelow r.high then do
      match ← KeyValueReader.firstAtLeast (if k < r.low then r.low else k) with
      | none => return none
      | some e => if r.contains e.1 then return some e else firstIn e.1 rs
    else firstIn k rs

/-- The last entry below `b` in a list of descending ranges. -/
def lastIn (b : Bound) : List KeyRange → StoreM σ (Option Entry)
  | [] => return none
  | r :: rs =>
    if r.low.isBelow b then do
      match ← KeyValueReader.lastBelow (b.min r.high) with
      | none => return none
      | some e => if r.contains e.1 then return some e else lastIn (.key e.1.successor) rs
    else lastIn b rs

/-- The entry that a walk meets next. -/
def find (s : Scan) : StoreM σ (Option Entry) :=
  if s.reverse then lastIn s.cursor s.ranges.ranges.toList.reverse
  else match s.cursor with
    | .key k => firstIn k s.ranges.ranges.toList
    | .top => return none

/-- Fetches the next entry unless one was fetched ahead; a walk without a next entry, or whose store
fails, has ended. -/
def fill (s : Scan) : StateM σ (Scan × Except StoreError (Option Entry)) := do
  match s.fetched with
  | some e => return (s, .ok (some e))
  | none =>
    match ← s.find.run with
    | .ok (some e) =>
      return ({ s with cursor := after s.reverse e.1, fetched := some e }, .ok (some e))
    | .ok none => return ({ s with cursor := ended s.reverse }, .ok none)
    | .error why => return ({ s with cursor := ended s.reverse }, .error why)

/-- The next entry, which stays ahead. -/
def peek (s : Scan) : StateM σ (Scan × Except StoreError (Option Entry)) := s.fill

def hasNext (s : Scan) : StateM σ (Scan × Except StoreError Bool) := do
  let (s, r) ← s.fill
  return (s, r.map Option.isSome)

def next (s : Scan) : StateM σ (Scan × Except StoreError (Option Entry)) := do
  let (s, r) ← s.fill
  return ({ s with fetched := none }, r)

/-- Takes up to a number of entries; a failure is the last item. -/
def take : Nat → Scan → StateM σ (Scan × List (Except StoreError Entry))
  | 0, s => return (s, [])
  | n + 1, s => do
    match ← s.next with
    | (s, .ok none) => return (s, [])
    | (s, .error why) => return (s, [.error why])
    | (s, .ok (some e)) =>
      let (s, es) ← take n s
      return (s, .ok e :: es)

/-- All that a walk still meets; a failure is the last item. One step more than the store has entries
finds the end. -/
def items (s : Scan) : StateM σ (Scan × List (Except StoreError Entry)) := do
  s.take (KeyValueReader.entryCount (← get) + 1)

/-- The entries that a walk still meets, or the failure that stopped it. -/
def collect (s : Scan) : StateM σ (Scan × Except StoreError (List Entry)) := do
  let (s, es) ← s.items
  return (s, es.mapM id)

/-- What `f` makes of up to a number of entries; the first failure, of the store or of `f`, ends the walk. -/
def images {α : Type} (f : Entry → Except StoreError α) : Nat → Scan → StoreM σ (List α)
  | 0, _ => return []
  | n + 1, s => do
    let (s, r) ← ExceptT.lift s.next
    match ← StoreM.ofExcept r with
    | none => return []
    | some e =>
      let a ← StoreM.ofExcept (f e)
      return a :: (← images f n s)

def toList (s : Scan) : StoreM σ (List Entry) := ExceptT.mk do return (← s.collect).2

end Fetch

end Scan

/-- The entries between two bounds, which have to be in order. -/
def KeyValueReader.range {σ : Type} [KeyValueReader σ] (low : Key) (high : Bound) (reverse : Bool) :
    StoreM σ (List Entry) := do
  let r ← StoreM.ofExcept (KeyRange.between low high)
  (Scan.create (.single r) none reverse).toList

end Keyspace
