import Keyspace.RangeSet.Algebra
import Keyspace.Transaction

/-!
The transactional database. It keeps the committed data, its version, and what recent commits wrote. A
commit succeeds only if no commit since the transaction began wrote a key that the transaction read;
commits that are no longer remembered count as conflicts.
-/
namespace Keyspace

/-- Databases whose work is done in transactions of type `τ`. -/
class TransactionalDatabase (δ : Type) (τ : outParam Type) where
  start : StoreM δ Unit
  stop : StoreM δ Unit
  /-- Opens a transaction. -/
  enter : StoreM δ τ
  commit : τ → StoreM δ Unit
  rollback : τ → StoreM δ Unit
  /-- Bounds how long a transaction may stay open, in milliseconds. -/
  setLimit : Nat → StoreM (τ × δ) Unit
  /-- No walk over a transaction's view meets more entries than this, its own writes apart. -/
  entryCount : δ → Nat

/-- The keys that the commit of a version wrote. -/
structure CommitRecord where
  version : Nat
  written : RangeSet
  deriving DecidableEq

structure Database where
  started : Bool
  /-- The number of commits that changed the data. -/
  version : Nat
  data : Store
  /-- The remembered commits, the oldest first. -/
  history : List CommitRecord
  /-- The version of the latest commit that is no longer remembered. -/
  historyFloor : Nat
  /-- How many commits are remembered. -/
  maxHistory : Nat
  deriving DecidableEq

namespace Database

/-- How many commits are remembered unless a number is given. -/
def defaultMaxHistory : Nat := 1024

def create (maxHistory : Nat) : Database := ⟨false, 0, .empty, [], 0, maxHistory⟩

/-- Drops the oldest commits beyond a number; returns the rest and the version of the last one dropped. -/
def evict (maxHistory : Nat) : List CommitRecord → Nat → List CommitRecord × Nat
  | [], floor => ([], floor)
  | r :: rs, floor =>
    if maxHistory < (r :: rs).length then evict maxHistory rs r.version else (r :: rs, floor)

def record (db : Database) (b : Batch) : Database :=
  let version := db.version + 1
  let (history, floor) := evict db.maxHistory (db.history ++ [⟨version, b.written⟩]) db.historyFloor
  { db with version, data := b.apply db.data, history, historyFloor := floor }

/-- Fails at the first remembered commit since the transaction began that wrote a key it had read. -/
def checkReads (t : Transaction) : List CommitRecord → Except StoreError Unit
  | [] => .ok ()
  | r :: rs =>
    if t.startVersion < r.version && !(r.written.inter t.reads).isEmpty then
      .error (.retry (.modified (r.written.inter t.reads)))
    else checkReads t rs

/-- Whether the writes of a transaction may be carried out now. -/
def checkCommit (db : Database) (t : Transaction) : Except StoreError Unit := do
  if !db.started then throw (.lifecycle .databaseStopped)
  t.checkLimit
  if t.writes.isEmpty then return ()
  if t.startVersion < db.historyFloor then throw (.retry (.historyTruncated t.startVersion))
  checkReads t db.history

instance : TransactionalDatabase Database Transaction where
  start := modify ({ · with started := true })
  stop := modify ({ · with started := false })
  enter := do
    let db ← get
    if !db.started then throw (.lifecycle .databaseStopped)
    return .start db.version db.data
  commit t := do
    let db ← get
    StoreM.ofExcept (db.checkCommit t)
    unless t.writes.isEmpty do set (db.record t.writes)
  rollback _ := return ()
  setLimit limit := StoreM.onFst (modify (·.setLimit limit))
  entryCount db := db.data.size

end Database

/-- A database together with notes that the work in its transactions may keep. -/
instance {δ τ ε : Type} [TransactionalDatabase δ τ] : TransactionalDatabase (δ × ε) τ where
  start := StoreM.onFst (TransactionalDatabase.start : StoreM δ Unit)
  stop := StoreM.onFst (TransactionalDatabase.stop : StoreM δ Unit)
  enter := StoreM.onFst TransactionalDatabase.enter
  commit t := StoreM.onFst (TransactionalDatabase.commit t)
  rollback t := StoreM.onFst (TransactionalDatabase.rollback t)
  setLimit limit :=
    StoreM.onPart (fun s => (s.1, s.2.1)) (fun s p => (p.1, (p.2, s.2.2)))
      (TransactionalDatabase.setLimit limit : StoreM (τ × δ) Unit)
  entryCount db := TransactionalDatabase.entryCount db.1

end Keyspace
