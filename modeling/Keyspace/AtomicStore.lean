import Keyspace.Database

/-!
A transactional database used as a store whose every call is atomic. Each call runs in a transaction of
its own, which is committed if the call succeeds and rolled back otherwise; a conflict starts the call
again in a new transaction, up to a number of times. Snapshots are transactions that only read and that
stay open until they are closed; one that is dropped instead is counted as leaked, but for those that a panic drops.
-/
namespace Keyspace

structure AtomicConfig where
  /-- How often a call that met a conflict is tried again. -/
  maxRetries : Nat := 3
  /-- How long a snapshot may stay open, in milliseconds. -/
  snapshotLimit : Nat := 2147483647
  deriving DecidableEq

structure AtomicStore (δ : Type) where
  db : δ
  config : AtomicConfig
  started : Bool
  leaked : Nat
  deriving DecidableEq

structure Snapshot (τ : Type) where
  transaction : τ
  deriving DecidableEq

namespace Snapshot

variable {τ α : Type}

def read (x : StoreM τ α) : StoreM (Snapshot τ) α :=
  StoreM.onPart (·.transaction) (fun _ t => ⟨t⟩) x

instance [KeyValueStore τ] : KeyValueReader (Snapshot τ) where
  get? k := read (KeyValueReader.get? k)
  firstAtLeast k := read (KeyValueReader.firstAtLeast k)
  lastBelow b := read (KeyValueReader.lastBelow b)
  encodeCounter n := read (KeyValueReader.encodeCounter n)
  decodeCounter v := read (KeyValueReader.decodeCounter v)
  entryCount s := KeyValueReader.entryCount s.transaction

end Snapshot

/-- How the use of a snapshot came to its end. -/
inductive Completion (α : Type) where
  | returned (a : α)
  | failed (why : StoreError)
  | panicked
  deriving DecidableEq

namespace AtomicStore

variable {δ τ α : Type}

def around (db : δ) (config : AtomicConfig) : AtomicStore δ := ⟨db, config, false, 0⟩

def onDatabase (x : StoreM δ α) : StoreM (AtomicStore δ) α :=
  StoreM.onPart (·.db) (fun s db => { s with db }) x

def setConfig (config : AtomicConfig) : StoreM (AtomicStore δ) Unit := do
  if (← get).started then throw (.lifecycle .configWhileRunning)
  modify ({ · with config })

def checkStarted : StoreM (AtomicStore δ) Unit := do
  if !(← get).started then throw (.lifecycle .atomicStoreStopped)

/-- An action, done again up to `budget` times as long as it fails with a conflict. -/
def retrying {σ : Type} (x : StoreM σ α) : Nat → StoreM σ α
  | 0 => x
  | budget + 1 => fun s =>
    match x s with
    | (.error why, s') => if why.isRetryable then retrying x budget s' else (.error why, s')
    | (.ok a, s') => (.ok a, s')

section Transactions

variable [TransactionalDatabase δ τ]

def start : StoreM (AtomicStore δ) Unit := do
  onDatabase TransactionalDatabase.start
  modify ({ · with started := true })

def stop : StoreM (AtomicStore δ) Unit := do
  onDatabase TransactionalDatabase.stop
  modify ({ · with started := false })

/-- Runs an action in a new transaction; commits if the action succeeds and rolls back otherwise. The
action may see the database change while its transaction is open. -/
def attempt (action : StoreM (τ × δ) α) : StoreM (AtomicStore δ) α := do
  checkStarted
  let t ← onDatabase TransactionalDatabase.enter
  let s ← get
  match action (t, s.db) with
  | (.ok a, (t, db)) =>
    set { s with db }
    onDatabase (TransactionalDatabase.commit t)
    return a
  | (.error why, (t, db)) =>
    set { s with db := (TransactionalDatabase.rollback t db).2 }
    throw why

/-- Runs an action in a transaction, and after a conflict again in a new one. -/
def inTransaction (action : StoreM (τ × δ) α) : StoreM (AtomicStore δ) α := do
  retrying (attempt action) (← get).config.maxRetries

/-- Opens a view of the data as it now is. A database without time limits is no reason to fail. -/
def openSnapshot : StoreM (AtomicStore δ) (Snapshot τ) := do
  checkStarted
  let t ← onDatabase TransactionalDatabase.enter
  let s ← get
  match TransactionalDatabase.setLimit s.config.snapshotLimit (t, s.db) with
  | (.ok (), (t, db)) | (.error (.unsupported _), (t, db)) =>
    set { s with db }
    return ⟨t⟩
  | (.error why, (t, db)) =>
    set { s with db := (TransactionalDatabase.rollback t db).2 }
    throw why

def closeSnapshot (s : Snapshot τ) : StoreM (AtomicStore δ) Unit :=
  onDatabase (TransactionalDatabase.rollback s.transaction)

/-- Drops a snapshot that was not closed. This is a leak, unless a panic is unwinding where it is dropped. -/
def dropSnapshot (s : Snapshot τ) (unwinding : Bool := false) (store : AtomicStore δ) : AtomicStore δ :=
  { store with
    db := (TransactionalDatabase.rollback s.transaction store.db).2,
    leaked := if unwinding then store.leaked else store.leaked + 1 }

/-- Uses a new snapshot and closes it. A use that panics gets no further, and its snapshot is dropped. -/
def withSnapshot (use : StateM (Snapshot τ × AtomicStore δ) (Completion α)) :
    StateM (AtomicStore δ) (Completion α) := do
  match ← openSnapshot.run with
  | .error why => return .failed why
  | .ok snapshot =>
    let (result, (snapshot, store)) := use (snapshot, ← get)
    match result with
    | .panicked =>
      set (dropSnapshot snapshot true store)
      return .panicked
    | _ =>
      set store
      match ← (closeSnapshot snapshot).run with
      | .error why => return .failed why
      | .ok _ => return result

variable [KeyValueStore τ]

/-- Writes a batch in one transaction. The hint to sync asks for nothing here. -/
def mutate (b : Batch) (_sync : Bool) : StoreM (AtomicStore δ) Unit :=
  inTransaction (StoreM.onFst b.applyTo)

def call (x : StoreM τ α) : StoreM (AtomicStore δ) α := inTransaction (StoreM.onFst x)

instance : KeyValueStore (AtomicStore δ) where
  get? k := call (KeyValueReader.get? k)
  firstAtLeast k := call (KeyValueReader.firstAtLeast k)
  lastBelow b := call (KeyValueReader.lastBelow b)
  encodeCounter n := call (KeyValueReader.encodeCounter n)
  decodeCounter v := call (KeyValueReader.decodeCounter v)
  entryCount s := TransactionalDatabase.entryCount s.db
  put k v := call (KeyValueStore.put k v)
  remove k := call (KeyValueStore.remove k)
  removeRange low high := call (KeyValueStore.removeRange low high)
  adjust k amount := call (KeyValueStore.adjust k amount)

end Transactions

end AtomicStore

end Keyspace
