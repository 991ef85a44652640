import Keyspace.AtomicStore
import Keyspace.FaultyDatabase
import Keyspace.Proofs.Call
import Keyspace.Proofs.Database

/-!
Work in transactions as a series of attempts. Each attempt opens a transaction, does the work in it and ends it;
after a conflict the next attempt begins where this one has left the database. What an attempt asked of the database
can be read off a journal. On the transactional database, where others may commit while the work is under way, a
series leaves no trace but the writes of a last attempt that succeeded.
-/
namespace Keyspace

inductive Attempt (τ α : Type) where
  /-- No transaction was opened. -/
  | refused (why : StoreError)
  /-- The work succeeded in transaction `t` and left it as `u`, which then was committed. -/
  | committed (t u : τ) (a : α) (result : Except StoreError Unit)
  /-- The work failed in transaction `t` and left it as `u`, which then was rolled back. -/
  | rolledBack (t u : τ) (why : StoreError) (result : Except StoreError Unit)

inductive Deed (τ α : Type) where
  | entered (result : Except StoreError τ)
  | acted (result : Except StoreError α)
  | committed (t : τ) (result : Except StoreError Unit)
  | rolledBack (t : τ) (result : Except StoreError Unit)

namespace Attempt

variable {δ τ α : Type}

def outcome : Attempt τ α → Except StoreError α
  | refused why => .error why
  | committed _ _ a result => result.map fun _ => a
  | rolledBack _ _ why _ => .error why

def Conflicts (a : Attempt τ α) : Prop := ∃ why, a.outcome = .error (.retry why)

/-- What is done in the attempt, in order: a transaction that is opened is ended once, by a commit if the work has
succeeded and by a rollback if not. -/
def deeds : Attempt τ α → List (Deed τ α)
  | refused why => [.entered (.error why)]
  | committed t u a result => [.entered (.ok t), .acted (.ok a), .committed u result]
  | rolledBack t u why result => [.entered (.ok t), .acted (.error why), .rolledBack u result]

section

variable [TransactionalDatabase δ τ]

/-- An attempt at an action that takes one state of a database to another. -/
inductive Takes (action : StoreM (τ × δ) α) : δ → Attempt τ α → δ → Prop where
  | refused {db db' why} (hentered : TransactionalDatabase.enter db = (.error why, db')) :
    Takes action db (refused why) db'
  | committed {db db₁ db₂ db' t u a} (result : Except StoreError Unit)
    (hentered : TransactionalDatabase.enter db = (.ok t, db₁))
    (hacted : action (t, db₁) = (.ok a, (u, db₂)))
    (hended : TransactionalDatabase.commit u db₂ = (result, db')) :
    Takes action db (committed t u a result) db'
  | rolledBack {db db₁ db₂ db' t u why} (result : Except StoreError Unit)
    (hentered : TransactionalDatabase.enter db = (.ok t, db₁))
    (hacted : action (t, db₁) = (.error why, (u, db₂)))
    (hended : TransactionalDatabase.rollback u db₂ = (result, db')) :
    Takes action db (rolledBack t u why result) db'

/-- Attempts one after the other, each beginning with the database that the one before has left. -/
inductive Series (action : StoreM (τ × δ) α) : δ → List (Attempt τ α) → δ → Prop where
  | nil (db : δ) : Series action db [] db
  | cons {db db₁ db' a as} (htakes : Takes action db a db₁) (hrest : Series action db₁ as db') :
    Series action db (a :: as) db'

/-- An attempt can always be made. -/
theorem exists_takes (action : StoreM (τ × δ) α) (db : δ) : ∃ a db', Takes action db a db' := by
  rcases hentered : TransactionalDatabase.enter db with ⟨why | t, db₁⟩
  · exact ⟨_, _, .refused hentered⟩
  · rcases hacted : action (t, db₁) with ⟨why | a, u, db₂⟩
    · exact ⟨_, _, .rolledBack _ hentered hacted rfl⟩
    · exact ⟨_, _, .committed _ hentered hacted rfl⟩

end

/-- A series goes on until an attempt meets no conflict, or until the budget is spent. -/
structure Bounded (budget : Nat) (tries : List (Attempt τ α)) (last : Attempt τ α) : Prop where
  conflicts : ∀ a ∈ tries, a.Conflicts
  length_le : tries.length ≤ budget
  spent : last.Conflicts → tries.length = budget

/-- Attempts can be made until there is no conflict or the budget is spent. -/
theorem exists_series [TransactionalDatabase δ τ] (action : StoreM (τ × δ) α) (budget : Nat) (db : δ) :
    ∃ tries last db', Series action db (tries ++ [last]) db' ∧ Bounded budget tries last := by
  induction budget generalizing db with
  | zero =>
    obtain ⟨last, db', htakes⟩ := exists_takes action db
    exact ⟨[], last, db', .cons htakes (.nil db'), by simp, Nat.le_refl _, fun _ => rfl⟩
  | succ budget ih =>
    obtain ⟨a, db₁, htakes⟩ := exists_takes action db
    by_cases hconflict : a.Conflicts
    · obtain ⟨tries, last, db', hseries, hconflicts, hlength, hspent⟩ := ih db₁
      refine ⟨a :: tries, last, db', .cons htakes hseries, ?_, Nat.succ_le_succ hlength, fun h => ?_⟩
      · exact List.forall_mem_cons.2 ⟨hconflict, hconflicts⟩
      · rw [List.length_cons, hspent h]
    · exact ⟨[], a, db₁, .cons htakes (.nil db₁), by simp, Nat.zero_le _, fun h => absurd h hconflict⟩

end Attempt

open Attempt (Takes Series Bounded)

/-! ## The store makes the attempts -/

namespace AtomicStore

variable {δ τ α : Type} [TransactionalDatabase δ τ] {action : StoreM (τ × δ) α} {s : AtomicStore δ} {db : δ}

omit [TransactionalDatabase δ τ] in
theorem checkStarted_apply (hstarted : s.started = true) :
    (checkStarted : StoreM (AtomicStore δ) Unit) s = (.ok (), s) := by
  simp [checkStarted, StoreM.bind_apply, hstarted]

omit [TransactionalDatabase δ τ] in
theorem checkStarted_of_stopped (hstopped : s.started = false) :
    (checkStarted : StoreM (AtomicStore δ) Unit) s = (.error (.lifecycle .atomicStoreStopped), s) := by
  simp [checkStarted, StoreM.bind_apply, hstopped]

/-- An attempt of the store is one at the action on its database. -/
theorem attempt_of_takes {a : Attempt τ α} (hstarted : s.started = true) (htakes : Takes action s.db a db) :
    attempt action s = (a.outcome, { s with db }) := by
  rw [attempt, StoreM.bind_ok (checkStarted_apply hstarted), StoreM.bind_apply, onDatabase, StoreM.onPart]
  cases htakes with
  | refused hentered => simp only [hentered]; rfl
  | committed result hentered hacted hended =>
    simp only [hentered, StoreM.bind_apply, StoreM.get_apply, hacted, StoreM.set_apply, onDatabase, StoreM.onPart,
      hended]
    cases result <;> rfl
  | rolledBack result hentered hacted hended =>
    simp only [hentered, StoreM.bind_apply, StoreM.get_apply, hacted, StoreM.set_apply, hended, StoreM.throw_apply]
    rfl

theorem retrying_succ_apply {σ : Type} (x : StoreM σ α) (budget : Nat) (s : σ) :
    retrying x (budget + 1) s = match x s with
      | (.error why, s') => if why.isRetryable then retrying x budget s' else (.error why, s')
      | (.ok a, s') => (.ok a, s') := rfl

/-- Retrying makes the attempts of a series that is bounded by the budget. -/
theorem retrying_of_series {budget : Nat} {tries : List (Attempt τ α)} {last : Attempt τ α}
    (hstarted : s.started = true) (hseries : Series action s.db (tries ++ [last]) db)
    (hbounded : Bounded budget tries last) :
    retrying (attempt action) budget s = (last.outcome, { s with db }) := by
  induction tries generalizing budget s with
  | nil =>
    have hattempt : attempt action s = (last.outcome, { s with db }) := by
      cases hseries with
      | cons htakes hrest =>
        cases hrest
        exact attempt_of_takes hstarted htakes
    cases budget with
    | zero => exact hattempt
    | succ budget =>
      rw [retrying_succ_apply, hattempt]
      cases houtcome : last.outcome with
      | ok a => rfl
      | error why =>
        -- a conflict would have been tried again
        have hfinal : why.isRetryable = false := by
          cases why with
          | retry why => exact absurd (hbounded.spent ⟨why, houtcome⟩) (by simp)
          | _ => rfl
        simp [hfinal]
  | cons a tries ih =>
    cases hseries with
    | cons htakes hrest =>
      obtain ⟨why, houtcome⟩ := hbounded.conflicts a List.mem_cons_self
      cases budget with
      | zero => exact absurd hbounded.length_le (by simp)
      | succ budget =>
        rw [retrying_succ_apply, attempt_of_takes hstarted htakes, houtcome]
        refine ih (s := { s with db := _ }) hstarted hrest ⟨?_, ?_, ?_⟩
        · exact fun x hx => hbounded.conflicts x (List.mem_cons_of_mem a hx)
        · exact Nat.le_of_succ_le_succ hbounded.length_le
        · exact fun h => Nat.succ.inj (hbounded.spent h)

/-- Nothing is tried on a store that is not started. -/
theorem inTransaction_of_stopped (hstopped : s.started = false) (action : StoreM (τ × δ) α) :
    inTransaction action s = (.error (.lifecycle .atomicStoreStopped), s) := by
  have hattempt : attempt action s = (.error (.lifecycle .atomicStoreStopped), s) :=
    StoreM.bind_error (checkStarted_of_stopped hstopped)
  have hretrying : ∀ budget, retrying (attempt action) budget s = (.error (.lifecycle .atomicStoreStopped), s)
    | 0 => hattempt
    | budget + 1 => by
      rw [retrying_succ_apply, hattempt]
      rfl
  exact hretrying s.config.maxRetries

theorem inTransaction_of_series {tries : List (Attempt τ α)} {last : Attempt τ α}
    (hstarted : s.started = true) (hseries : Series action s.db (tries ++ [last]) db)
    (hbounded : Bounded s.config.maxRetries tries last) :
    inTransaction action s = (last.outcome, { s with db }) :=
  retrying_of_series hstarted hseries hbounded

/-- The work of a store comes to the same however many snapshots have leaked, and is no leak itself. -/
theorem inTransaction_leaked (action : StoreM (τ × δ) α) (s : AtomicStore δ) :
    ∃ result db, ∀ leaked, inTransaction action { s with leaked } = (result, { s with db, leaked }) := by
  rcases Bool.eq_false_or_eq_true s.started with hstarted | hstopped
  · obtain ⟨tries, last, db, hseries, hbounded⟩ := Attempt.exists_series action s.config.maxRetries s.db
    exact ⟨_, db, fun leaked => inTransaction_of_series (s := { s with leaked }) hstarted hseries hbounded⟩
  · exact ⟨_, s.db, fun leaked => inTransaction_of_stopped (s := { s with leaked }) hstopped action⟩

end AtomicStore

/-! ## What the database is asked for -/

structure Journaled (δ τ α : Type) where
  inner : δ
  journal : List (Deed τ α)

namespace Journaled

variable {δ τ α β : Type}

/-- Runs an action on the database inside and enters the result in the journal. -/
def note (deed : Except StoreError β → Deed τ α) (x : StoreM δ β) : StoreM (Journaled δ τ α) β := fun db =>
  let (result, inner) := x db.inner
  (result, ⟨inner, db.journal ++ [deed result]⟩)

def onInner (x : StoreM δ β) : StoreM (Journaled δ τ α) β :=
  StoreM.onPart (·.inner) (fun db inner => { db with inner }) x

instance [TransactionalDatabase δ τ] : TransactionalDatabase (Journaled δ τ α) τ where
  start := onInner (TransactionalDatabase.start : StoreM δ Unit)
  stop := onInner (TransactionalDatabase.stop : StoreM δ Unit)
  enter := note .entered TransactionalDatabase.enter
  commit t := note (.committed t) (TransactionalDatabase.commit t)
  rollback t := note (.rolledBack t) (TransactionalDatabase.rollback t)
  setLimit limit :=
    StoreM.onPart (fun s => (s.1, s.2.inner)) (fun s p => (p.1, { s.2 with inner := p.2 }))
      (TransactionalDatabase.setLimit limit : StoreM (τ × δ) Unit)
  entryCount db := TransactionalDatabase.entryCount db.inner

/-- An action in a transaction, with its result entered in the journal. -/
def recording (action : StoreM (τ × δ) α) : StoreM (τ × Journaled δ τ α) α := fun (t, db) =>
  let (result, (u, inner)) := action (t, db.inner)
  (result, (u, ⟨inner, db.journal ++ [.acted result]⟩))

theorem note_apply {deed : Except StoreError β → Deed τ α} {x : StoreM δ β} {db inner : δ}
    {result : Except StoreError β} (h : x db = (result, inner)) (journal : List (Deed τ α)) :
    note deed x ⟨db, journal⟩ = (result, ⟨inner, journal ++ [deed result]⟩) := by
  simp only [note, h]

theorem recording_apply {action : StoreM (τ × δ) α} {t u : τ} {db inner : δ} {result : Except StoreError α}
    (h : action (t, db) = (result, (u, inner))) (journal : List (Deed τ α)) :
    recording action (t, ⟨db, journal⟩) = (result, (u, ⟨inner, journal ++ [.acted result]⟩)) := by
  simp only [recording, h]

end Journaled

open Journaled (recording)

def AtomicStore.journaled {δ τ α : Type} (s : AtomicStore δ) (journal : List (Deed τ α)) :
    AtomicStore (Journaled δ τ α) :=
  ⟨⟨s.db, journal⟩, s.config, s.started, s.leaked⟩

section

variable {δ τ α : Type} [TransactionalDatabase δ τ] {action : StoreM (τ × δ) α} {db db' : δ}

/-- The journal of an attempt tells its deeds. -/
theorem Attempt.Takes.recording {a : Attempt τ α} (h : Takes action db a db') (journal : List (Deed τ α)) :
    Takes (recording action) ⟨db, journal⟩ a ⟨db', journal ++ a.deeds⟩ := by
  cases h with
  | refused hentered => exact .refused (Journaled.note_apply hentered _)
  | committed result hentered hacted hended =>
    rw [deeds, List.append_cons, List.append_cons]
    exact .committed result (Journaled.note_apply hentered _) (Journaled.recording_apply hacted _)
      (Journaled.note_apply hended _)
  | rolledBack result hentered hacted hended =>
    rw [deeds, List.append_cons, List.append_cons]
    exact .rolledBack result (Journaled.note_apply hentered _) (Journaled.recording_apply hacted _)
      (Journaled.note_apply hended _)

/-- The journal of a series tells the deeds of its attempts, one after the other. -/
theorem Attempt.Series.recording {as : List (Attempt τ α)} (h : Series action db as db')
    (journal : List (Deed τ α)) :
    Series (recording action) ⟨db, journal⟩ as ⟨db', journal ++ as.flatMap deeds⟩ := by
  induction h generalizing journal with
  | nil db =>
    rw [List.flatMap_nil, List.append_nil]
    exact .nil _
  | cons htakes hrest ih =>
    rw [List.flatMap_cons, ← List.append_assoc]
    exact .cons (htakes.recording journal) (ih _)

end

/-! ## Work among rivals -/

/-- What is known of the work in the transactions of a database: what one attempt leaves for the next, and what other
transactions have written. -/
structure Ledger (ε : Type) where
  memory : ε
  /-- What the commits of others have written, the first one first. -/
  rivals : List Batch

/-- The data after the commits of the others. -/
def Ledger.after {ε : Type} (l : Ledger ε) (m : Store) : Store := l.rivals.foldl (fun m b => b.apply m) m

inductive Script (ε α : Type) where
  /-- The work is done. -/
  | done (memory : ε) (result : Except StoreError α)
  /-- A read or a write in the transaction. -/
  | call (c : Call) (next : Outcome → Script ε α)
  | setLimit (ms : Nat) (next : Script ε α)
  | elapse (ms : Nat) (next : Script ε α)
  /-- The transaction and the database are looked at; so others open theirs. -/
  | look (next : Transaction → Database → Script ε α)
  /-- Another transaction asks for its commit. -/
  | rival (t : Transaction) (next : Except StoreError Unit → Script ε α)
  | start (next : Script ε α)
  | stop (next : Script ε α)

namespace Script

variable {ε α : Type}

def run : Script ε α → StoreM (Transaction × (Database × Ledger ε)) α
  | done memory result => fun (t, (db, l)) => (result, (t, (db, { l with memory })))
  | call c next => fun (t, (db, l)) => (next (c.run t).1).run ((c.run t).2, (db, l))
  | setLimit ms next => fun (t, (db, l)) => next.run (t.setLimit ms, (db, l))
  | elapse ms next => fun (t, (db, l)) => next.run (t.elapse ms, (db, l))
  | look next => fun (t, (db, l)) => (next t db).run (t, (db, l))
  | rival other next => fun (t, (db, l)) =>
    match TransactionalDatabase.commit other db with
    | (.ok (), db) => (next (.ok ())).run (t, (db, { l with rivals := l.rivals ++ [other.writes] }))
    | (.error why, db) => (next (.error why)).run (t, (db, l))
  | start next => fun (t, (db, l)) => next.run (t, ((TransactionalDatabase.start db).2, l))
  | stop next => fun (t, (db, l)) => next.run (t, ((TransactionalDatabase.stop db).2, l))

/-- Work that depends on what the attempt before has left. -/
def resuming (script : ε → Script ε α) : StoreM (Transaction × (Database × Ledger ε)) α := fun s =>
  (script s.2.2.memory).run s

end Script

/-- The data are what the others have made of some data. -/
def Ledger.Accounts {ε : Type} (m : Store) (db : Database × Ledger ε) : Prop := db.1.data = db.2.after m

section

variable {ε α : Type} {m : Store} {db db' : Database × Ledger ε} {script : ε → Script ε α}

theorem Ledger.after_append (l : Ledger ε) (b : Batch) (m : Store) :
    after { l with rivals := l.rivals ++ [b] } m = b.apply (l.after m) := by
  rw [after, List.foldl_append]
  rfl

/-- Whatever the others do while the work is under way, the work itself changes nothing in the data. -/
theorem Ledger.Accounts.run (work : Script ε α) (t : Transaction) (h : Accounts m db) :
    Accounts m (work.run (t, db)).2.2 := by
  induction work generalizing t db with
  | done memory result => exact h
  | call c next ih => exact ih _ _ h
  | setLimit ms next ih => exact ih _ h
  | elapse ms next ih => exact ih _ h
  | look next ih => exact ih _ _ _ h
  | rival other next ih =>
    rw [Script.run]
    rcases db.1.commit_cases other with ⟨why, hcommit⟩ | ⟨hempty, hcommit⟩ | ⟨-, -, hcommit⟩
    · simp only [hcommit]
      exact ih _ _ h
    · simp only [hcommit]
      refine ih _ _ ?_
      rw [Accounts, after_append, Batch.apply_of_isEmpty hempty]
      exact h
    · simp only [hcommit]
      refine ih _ _ ?_
      rw [Accounts, after_append, ← h]
      rfl
  | start next ih => exact ih _ h
  | stop next ih => exact ih _ h

theorem Ledger.Accounts.resuming {t u : Transaction} {result : Except StoreError α} (h : Accounts m db)
    (hacted : Script.resuming script (t, db) = (result, (u, db'))) : Accounts m db' := by
  have hkept := h.run (script db.2.memory) t
  rw [Script.resuming] at hacted
  rwa [hacted] at hkept

/-- Opening a transaction leaves the database as it is. -/
theorem Ledger.eq_of_enter {result : Except StoreError Transaction}
    (h : TransactionalDatabase.enter db = (result, db')) : db = db' := by
  have hsame : (TransactionalDatabase.enter db.1).2 = db.1 := by
    rw [Database.enter_apply]
    split <;> rfl
  have hpair : (TransactionalDatabase.enter db).2 = db := Prod.ext hsame rfl
  rw [← hpair, h]

/-- A commit carries out the writes of its transaction if it succeeds, and nothing otherwise. -/
theorem Ledger.Accounts.commit (h : Accounts m db) (t : Transaction) :
    (TransactionalDatabase.commit t db).2.2 = db.2 ∧
      match (TransactionalDatabase.commit t db).1 with
      | .ok () => (TransactionalDatabase.commit t db).2.1.data = t.writes.apply (db.2.after m)
      | .error _ => Accounts m (TransactionalDatabase.commit t db).2 := by
  have hcommit : TransactionalDatabase.commit t db =
      ((TransactionalDatabase.commit t db.1).1, ((TransactionalDatabase.commit t db.1).2, db.2)) := rfl
  rw [hcommit]
  refine ⟨rfl, ?_⟩
  rcases db.1.commit_cases t with ⟨why, hcommit⟩ | ⟨hempty, hcommit⟩ | ⟨-, -, hcommit⟩
  · simpa only [hcommit] using h
  · simp only [hcommit, Batch.apply_of_isEmpty hempty]
    exact h
  · simp only [hcommit]
    rw [← h]
    rfl

/-- An attempt puts the writes of its transaction on top of those of the others, or leaves nothing of them. -/
theorem Attempt.Takes.accounts {a : Attempt Transaction α} (h : Takes (Script.resuming script) db a db')
    (hm : Ledger.Accounts m db) :
    (∀ r, a.outcome = .ok r →
      ∃ t u, a = .committed t u r (.ok ()) ∧ db'.1.data = u.writes.apply (db'.2.after m)) ∧
    ∀ why, a.outcome = .error why → Ledger.Accounts m db' := by
  cases h with
  | refused hentered =>
    obtain rfl := Ledger.eq_of_enter hentered
    exact ⟨fun r houtcome => (nomatch houtcome), fun why _ => hm⟩
  | committed result hentered hacted hended =>
    obtain rfl := Ledger.eq_of_enter hentered
    obtain ⟨hledger, hdata⟩ := (hm.resuming hacted).commit _
    rw [hended] at hledger hdata
    cases result with
    | error why => exact ⟨fun r houtcome => (nomatch houtcome), fun why _ => hdata⟩
    | ok =>
      refine ⟨?_, fun why houtcome => (nomatch houtcome)⟩
      rintro r ⟨⟩
      exact ⟨_, _, rfl, hledger ▸ hdata⟩
  | rolledBack result hentered hacted hended =>
    obtain rfl := Ledger.eq_of_enter hentered
    cases hended
    exact ⟨fun r houtcome => (nomatch houtcome), fun why _ => hm.resuming hacted⟩

/-- Attempts that met a conflict leave no trace of their own, so the rest of a series begins where only the others
have written. -/
theorem Attempt.Series.accounts {tries as : List (Attempt Transaction α)}
    (h : Series (Script.resuming script) db (tries ++ as) db') (hconflicts : ∀ a ∈ tries, a.Conflicts)
    (hm : Ledger.Accounts m db) :
    ∃ db₁, Ledger.Accounts m db₁ ∧ Series (Script.resuming script) db₁ as db' := by
  induction tries generalizing db with
  | nil => exact ⟨db, hm, h⟩
  | cons a tries ih =>
    obtain ⟨⟨why, houtcome⟩, hconflicts⟩ := List.forall_mem_cons.1 hconflicts
    cases h with
    | cons htakes hrest => exact ih hrest hconflicts ((htakes.accounts hm).2 _ houtcome)

end

/-! ## The whole -/

namespace AtomicStore

open Script (resuming)

/-- A transaction is all or nothing, with an exact budget for its retries. On any database and for any action, a
started store makes attempts until one meets no conflict or the budget is spent, and answers with the outcome of the
last one; seen from the database, a transaction that is opened for an attempt is ended before the next attempt begins,
by one commit if the action succeeded in it and by one rollback otherwise. On the transactional database, whoever else
commits while the action is under way, the data are in the end what the others have made of them, with the writes of
the last attempt on top if it succeeded. -/
theorem inTransaction_all_or_nothing {α : Type} :
    (∀ {δ τ : Type} [TransactionalDatabase δ τ] (action : StoreM (τ × δ) α) (s : AtomicStore δ),
      s.started = true →
      ∃ (tries : List (Attempt τ α)) (last : Attempt τ α) (db : δ),
        Series action s.db (tries ++ [last]) db ∧ Bounded s.config.maxRetries tries last ∧
        inTransaction action s = (last.outcome, { s with db }) ∧
        inTransaction (recording action) (s.journaled []) =
          (last.outcome, { s with db }.journaled ((tries ++ [last]).flatMap Attempt.deeds))) ∧
    ∀ {ε : Type} (script : ε → Script ε α) (s : AtomicStore (Database × Ledger ε)), s.started = true →
      s.db.2.rivals = [] →
      ∃ (tries : List (Attempt Transaction α)) (last : Attempt Transaction α) (db : Database × Ledger ε),
        Series (resuming script) s.db (tries ++ [last]) db ∧ Bounded s.config.maxRetries tries last ∧
        inTransaction (resuming script) s = (last.outcome, { s with db }) ∧
        (∀ a, last.outcome = .ok a →
          ∃ t u, last = .committed t u a (.ok ()) ∧ db.1.data = u.writes.apply (db.2.after s.db.1.data)) ∧
        ∀ why, last.outcome = .error why → db.1.data = db.2.after s.db.1.data := by
  refine ⟨?_, ?_⟩
  · intro δ τ _ action s hstarted
    obtain ⟨tries, last, db, hseries, hbounded⟩ := Attempt.exists_series action s.config.maxRetries s.db
    refine ⟨tries, last, db, hseries, hbounded, inTransaction_of_series hstarted hseries hbounded, ?_⟩
    exact inTransaction_of_series (s := s.journaled []) hstarted (hseries.recording []) hbounded
  · intro ε script s hstarted hrivals
    obtain ⟨tries, last, db, hseries, hbounded⟩ :=
      Attempt.exists_series (resuming script) s.config.maxRetries s.db
    have hbegin : Ledger.Accounts s.db.1.data s.db := by rw [Ledger.Accounts, Ledger.after, hrivals, List.foldl_nil]
    obtain ⟨db₁, hbefore, hlast⟩ := hseries.accounts hbounded.conflicts hbegin
    cases hlast with
    | cons htakes hrest =>
      cases hrest
      exact ⟨tries, last, db, hseries, hbounded, inTransaction_of_series hstarted hseries hbounded,
        htakes.accounts hbefore⟩

/-- Every commit is made to conflict, and one retry is allowed. On the other database the first attempt has its read
overtaken, the second runs out of time, and the third succeeds although a rival writes the same key. -/
theorem inTransaction_all_or_nothing_contended :
    let database : Database := { Database.create 4 with started := true }
    let put (k : Key) (v : Value) : Call := .write (.put k v)
    let faulty : AtomicStore (FaultyDatabase Database) :=
      ⟨{ FaultyDatabase.around database .full with conflicts := 5 }, ⟨1, 10⟩, true, 0⟩
    let rival (k : Key) : Transaction := ((put k [9]).run (Transaction.start 0 .empty)).2
    let script : Nat → Script Nat Unit
      | 0 => .call (.get [1]) fun _ => .call (put [1] [2]) fun _ => .rival (rival [1]) fun _ => .done 1 (.ok ())
      | 1 => .setLimit 5 (.call (put [2] [2]) fun _ => .elapse 6 (.call (.get [2]) fun answer =>
        .done 2 (answer.map fun _ => ())))
      | n => .call (put [3] [2]) fun _ => .rival (rival [3]) fun _ => .done n (.ok ())
    let s : AtomicStore (Database × Ledger Nat) := ⟨(database, ⟨0, []⟩), {}, true, 0⟩
    (∃ (tries : List (Attempt Transaction Answer)) (last : Attempt Transaction Answer)
      (db : FaultyDatabase Database),
      Series (StoreM.onFst (put [1] [2]).run) faulty.db (tries ++ [last]) db ∧ tries.length = 1 ∧
        last.outcome = .error (.retry (.injected "injected conflict"))) ∧
    ∃ (u : Transaction) (db : Database × Ledger Nat),
      inTransaction (resuming script) s = (.ok (), { s with db }) ∧
        db.1.data = u.writes.apply (db.2.after .empty) ∧
        db.1.data.toList = [([1], [9]), ([3], [2])] := by
  intro database put faulty rival script s
  refine ⟨?_, ?_⟩
  · obtain ⟨tries, last, db, hseries, hbounded, hrun, -⟩ :=
      inTransaction_all_or_nothing.1 (StoreM.onFst (put [1] [2]).run) faulty rfl
    have hfails : (inTransaction (StoreM.onFst (put [1] [2]).run) faulty).1 =
        .error (.retry (.injected "injected conflict")) := rfl
    rw [hrun] at hfails
    exact ⟨tries, last, db, hseries, hbounded.spent ⟨_, hfails⟩, hfails⟩
  · obtain ⟨tries, last, db, -, -, hrun, hok, -⟩ := inTransaction_all_or_nothing.2 script s rfl rfl
    have hresult : (inTransaction (resuming script) s).1.toOption = some () ∧
        (inTransaction (resuming script) s).2.db.1.data.toList = [([1], [9]), ([3], [2])] := by decide +kernel
    rw [hrun] at hresult
    have hsucceeds : last.outcome = .ok () := by
      cases houtcome : last.outcome with
      | ok => rfl
      | error why => simp [houtcome, Except.toOption] at hresult
    obtain ⟨t, u, -, hcommitted⟩ := hok () hsucceeds
    exact ⟨u, db, hrun.trans (by rw [hsucceeds]), hcommitted, hresult.2⟩

end AtomicStore

end Keyspace
