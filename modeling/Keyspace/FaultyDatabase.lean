import Keyspace.Database

/-!
A database with faults on demand: commits that conflict, and time limits that are refused. It also counts
the transactions that were asked for. What is built on a transactional database can be tried out on it.
-/
namespace Keyspace

inductive LimitSupport where
  | full
  | unsupported
  | failing
  deriving DecidableEq

structure FaultyDatabase (δ : Type) where
  inner : δ
  /-- How many transactions were asked for, also in vain. -/
  opened : Nat
  /-- How many of the next commits conflict. -/
  conflicts : Nat
  limits : LimitSupport
  deriving DecidableEq

namespace FaultyDatabase

variable {δ τ α : Type}

def around (inner : δ) (limits : LimitSupport) : FaultyDatabase δ := ⟨inner, 0, 0, limits⟩

def onInner (x : StoreM δ α) : StoreM (FaultyDatabase δ) α :=
  StoreM.onPart (·.inner) (fun db inner => { db with inner }) x

instance [TransactionalDatabase δ τ] : TransactionalDatabase (FaultyDatabase δ) τ where
  start := onInner (TransactionalDatabase.start : StoreM δ Unit)
  stop := onInner (TransactionalDatabase.stop : StoreM δ Unit)
  enter := do
    modify fun db => { db with opened := db.opened + 1 }
    onInner TransactionalDatabase.enter
  commit t := do
    match (← get).conflicts with
    | 0 => onInner (TransactionalDatabase.commit t)
    | n + 1 =>
      modify ({ · with conflicts := n })
      onInner (TransactionalDatabase.rollback t)
      throw (.retry (.injected "injected conflict"))
  rollback t := onInner (TransactionalDatabase.rollback t)
  setLimit limit := do
    match (← get).2.limits with
    | .full =>
      StoreM.onPart (fun s => (s.1, s.2.inner)) (fun s p => (p.1, { s.2 with inner := p.2 }))
        (TransactionalDatabase.setLimit limit : StoreM (τ × δ) Unit)
    | .unsupported => throw (.unsupported "transaction timeouts")
    | .failing => throw (.internal "injected timeout failure")
  entryCount db := TransactionalDatabase.entryCount db.inner

end FaultyDatabase

end Keyspace
