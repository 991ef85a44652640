import Keyspace.Proofs.Attempts
import Keyspace.Proofs.Transaction

/-!
Requests to an atomic store. Each is one piece of work in a transaction of its own. Where nobody else commits, nobody
overtakes the transaction; so one is enough for each request, which then comes to what it comes to on a plain store.
-/
namespace Keyspace

/-! ## Requests -/

inductive Request where
  | call (c : Call)
  | mutate (b : Batch) (sync : Bool)

namespace Request

section

variable {σ : Type} [KeyValueStore σ]

def run : Request → StoreM σ Answer
  | call c => c.run
  | mutate b _ => (fun _ => .written) <$> b.applyTo

/-- Does what the requests of a list ask for, one after the other. -/
def replay : List Request → σ → List Outcome × σ
  | [], s => ([], s)
  | r :: rs, s => ((r.run s).1 :: (replay rs (r.run s).2).1, (replay rs (r.run s).2).2)

theorem replay_append (rs qs : List Request) (s : σ) :
    replay (rs ++ qs) s =
      ((replay rs s).1 ++ (replay qs (replay rs s).2).1, (replay qs (replay rs s).2).2) := by
  induction rs generalizing s with
  | nil => rfl
  | cons r rs ih => simp [replay, ih]

end

def perform {δ τ : Type} [TransactionalDatabase δ τ] [KeyValueStore τ] : Request → StoreM (AtomicStore δ) Answer
  | call c => c.run
  | mutate b sync => (fun _ => .written) <$> AtomicStore.mutate b sync

end Request

/-! ## A request is one piece of work -/

namespace StoreM

theorem onFst_apply {σ τ α : Type} (x : StoreM σ α) (s : σ) (t : τ) :
    onFst x (s, t) = ((x s).1, ((x s).2, t)) := rfl

theorem map_onFst {σ τ α β : Type} (f : α → β) (x : StoreM σ α) :
    f <$> (onFst x : StoreM (σ × τ) α) = onFst (f <$> x) := by
  funext s
  rw [map_apply, onFst, onFst, onPart, onPart, map_apply]
  rfl

end StoreM

namespace AtomicStore

variable {δ τ α β : Type} [TransactionalDatabase δ τ]

/-- What is made of the result of an attempt can as well be made of it before the commit. -/
theorem map_attempt (f : α → β) (action : StoreM (τ × δ) α) : f <$> attempt action = attempt (f <$> action) := by
  funext s
  rw [StoreM.map_apply]
  simp only [attempt, StoreM.bind_apply, StoreM.get_apply]
  rcases (checkStarted : StoreM (AtomicStore δ) Unit) s with ⟨why | _, s⟩
  · rfl
  dsimp only
  rcases (onDatabase TransactionalDatabase.enter : StoreM (AtomicStore δ) τ) s with ⟨why | t, s⟩
  · rfl
  dsimp only
  rw [StoreM.map_apply]
  rcases action (t, s.db) with ⟨why | a, u, db⟩
  · rfl
  simp only [StoreM.bind_apply, StoreM.set_apply, Except.map]
  rcases (onDatabase (TransactionalDatabase.commit u) : StoreM (AtomicStore δ) Unit) { s with db } with ⟨why | _, s⟩
  · rfl
  · rfl

/-- What is made of the result makes no difference to trying again. -/
theorem map_retrying {σ : Type} (f : α → β) (x : StoreM σ α) (budget : Nat) :
    f <$> retrying x budget = retrying (f <$> x) budget := by
  funext s
  induction budget generalizing s with
  | zero => rfl
  | succ budget ih =>
    rw [retrying_succ_apply, StoreM.map_apply, StoreM.map_apply, retrying_succ_apply]
    rcases x s with ⟨why | a, s'⟩
    · cases hretry : why.isRetryable with
      | true => simpa [Except.map, hretry, StoreM.map_apply] using ih s'
      | false => simp [Except.map, hretry]
    · rfl

/-- What is made of the result can as well be made of it inside the transaction. -/
theorem map_inTransaction (f : α → β) (action : StoreM (τ × δ) α) :
    f <$> inTransaction action = inTransaction (f <$> action) := by
  funext s
  rw [inTransaction, inTransaction, map_bind, ← map_attempt]
  simp only [map_retrying]

theorem map_call [KeyValueStore τ] (f : α → β) (x : StoreM τ α) :
    (f <$> call x : StoreM (AtomicStore δ) β) = inTransaction (StoreM.onFst (f <$> x)) := by
  rw [call, map_inTransaction, StoreM.map_onFst]

/-- Every request is one piece of work in a transaction. -/
theorem perform_eq [KeyValueStore τ] (r : Request) :
    (r.perform : StoreM (AtomicStore δ) Answer) = inTransaction (StoreM.onFst r.run) := by
  cases r with
  | mutate b sync => exact map_call _ b.applyTo
  | call c =>
    cases c with
    | get k => exact map_call ..
    | firstAtLeast k => exact map_call ..
    | lastBelow b => exact map_call ..
    | write w => cases w <;> exact map_call ..

end AtomicStore

/-! ## Requests on plain stores and in transactions -/

namespace Request

theorem run_mutate {σ : Type} [KeyValueStore σ] {b : Batch} {s : σ} (sync : Bool)
    (h : ∀ o ∈ (Call.replay b.calls s).1, ∃ a, o = .ok a) :
    (mutate b sync).run s = (.ok .written, (Call.replay b.calls s).2) := by
  rw [run, StoreM.map_apply, Batch.applyTo_eq, Call.forM_perform h]
  rfl

theorem run_mutate_store (b : Batch) (sync : Bool) (m : Store) :
    (mutate b sync).run m = (.ok .written, (Call.replay b.calls m).2) :=
  run_mutate sync fun _ => Call.exists_of_mem_replay_store fun _ => Batch.fault?_of_mem_calls

/-- A request that fails on a plain store is at fault itself, and changes nothing. -/
theorem run_store_error {r : Request} {m : Store} {why : StoreError} (h : (r.run m).1 = .error why) :
    why.isRetryable = false ∧ (r.run m).2 = m := by
  cases r with
  | mutate b sync =>
    rw [run_mutate_store] at h
    cases h
  | call c =>
    rw [run] at h ⊢
    cases hc : c.fault? with
    | none =>
      obtain ⟨a, ha⟩ := Call.exists_run_store hc m
      cases ha.symm.trans h
    | some why' =>
      rw [Call.run_store_of_fault hc] at h ⊢
      obtain rfl := Except.error.inj h
      exact ⟨Call.isRetryable_of_fault hc, rfl⟩

/-- In a transaction a request comes to what it comes to on a plain store, and its writes are kept for the commit. -/
theorem run_transaction {t : Transaction} {m : Store} (hopen : t.expired? = none) (hm : t.Shows m) (r : Request) :
    (r.run t).1 = (r.run m).1 ∧ t.Extends (r.run t).2 ∧
      ∀ n, (r.run t).2.writes.apply n = (r.run (t.writes.apply n)).2 := by
  cases r with
  | call c => exact ⟨(t.run_shows hopen hm c).1, t.run_extends c, t.apply_writes_run hopen c⟩
  | mutate b sync =>
    have hanswers := (Transaction.replay_shows hopen hm b.calls).1
    have hsucceeds : ∀ o ∈ (Call.replay b.calls t).1, ∃ a, o = .ok a := by
      rw [hanswers]
      exact fun _ => Call.exists_of_mem_replay_store fun _ => Batch.fault?_of_mem_calls
    rw [run_mutate sync hsucceeds, run_mutate_store]
    refine ⟨rfl, Transaction.replay_extends b.calls t, fun n => ?_⟩
    rw [run_mutate_store]
    exact Transaction.apply_writes_replay hopen b.calls n

end Request

/-! ## One transaction is enough -/

namespace Attempt

variable {δ τ α β : Type}

/-- What is asked of the database in an attempt, with the answers. -/
def asked : Attempt τ α → List (Deed τ β)
  | refused why => [.entered (.error why)]
  | committed t u _ result => [.entered (.ok t), .committed u result]
  | rolledBack t u _ result => [.entered (.ok t), .rolledBack u result]

/-- Work that looks at its transaction alone leaves the rest to the journal. -/
theorem Takes.noting [TransactionalDatabase δ τ] {x : StoreM τ α} {db db' : δ} {a : Attempt τ α}
    (h : Takes (StoreM.onFst x) db a db') (journal : List (Deed τ β)) :
    Takes (δ := Journaled δ τ β) (StoreM.onFst x) ⟨db, journal⟩ a ⟨db', journal ++ a.asked⟩ := by
  cases h with
  | refused hentered => exact .refused (Journaled.note_apply hentered _)
  | committed result hentered hacted hended =>
    rw [StoreM.onFst_apply, Prod.mk.injEq, Prod.mk.injEq] at hacted
    obtain ⟨hresult, rfl, rfl⟩ := hacted
    rw [asked, List.append_cons]
    exact .committed result (Journaled.note_apply hentered _) (by rw [StoreM.onFst_apply, hresult])
      (Journaled.note_apply hended _)
  | rolledBack result hentered hacted hended =>
    rw [StoreM.onFst_apply, Prod.mk.injEq, Prod.mk.injEq] at hacted
    obtain ⟨hresult, rfl, rfl⟩ := hacted
    rw [asked, List.append_cons]
    exact .rolledBack result (Journaled.note_apply hentered _) (by rw [StoreM.onFst_apply, hresult])
      (Journaled.note_apply hended _)

end Attempt

/-- The journal of one transaction, which is opened and then ended. -/
def Deed.OneTransaction {τ α : Type} (journal : List (Deed τ α)) : Prop :=
  ∃ t u, journal = [.entered (.ok t), .committed u (.ok ())] ∨ journal = [.entered (.ok t), .rolledBack u (.ok ())]

open Attempt (Takes Bounded)

section

variable {db : Database}

/-- An attempt at a request comes to what the request comes to on a plain store with the same data. -/
theorem Database.Ready.exists_takes (h : db.Ready) (r : Request) :
    ∃ (last : Attempt Transaction Answer) (db' : Database),
      Takes (StoreM.onFst r.run) db last db' ∧ last.outcome = (r.run db.data).1 ∧ db'.data = (r.run db.data).2 ∧
      db'.Ready ∧ Deed.OneTransaction (last.asked : List (Deed Transaction Answer)) := by
  obtain ⟨t, ht⟩ : ∃ t, Transaction.start db.version db.data = t := ⟨_, rfl⟩
  have hentered : TransactionalDatabase.enter db = (.ok t, db) := by
    rw [Database.enter_apply, h.started, if_pos rfl, ht]
  have hopen : t.expired? = none := by rw [← ht]; rfl
  have hshows : t.Shows db.data := ht ▸ Transaction.shows_start db.version db.data
  have hwrites : t.writes.apply db.data = db.data := by rw [← ht]; exact Batch.apply_empty db.data
  have hversion : t.startVersion = db.version := by rw [← ht]; rfl
  obtain ⟨hresult, hextends, happly⟩ := r.run_transaction hopen hshows
  cases hrun : (r.run db.data).1 with
  | ok a =>
    rw [hrun] at hresult
    obtain ⟨db', hcommit, hdata, hready⟩ :=
      h.commit (hextends.startVersion.trans hversion) (hextends.expired?.trans hopen)
    refine ⟨_, db', .committed (.ok ()) hentered (by rw [StoreM.onFst_apply, hresult]) hcommit, rfl, ?_, hready,
      _, _, .inl rfl⟩
    rw [hdata, happly, hwrites]
  | error why =>
    rw [hrun] at hresult
    refine ⟨_, db, .rolledBack (.ok ()) hentered (by rw [StoreM.onFst_apply, hresult]) rfl, rfl, ?_, h,
      _, _, .inr rfl⟩
    exact (Request.run_store_error hrun).2.symm

/-- A request to a store around a database that nobody else writes to is answered as by a plain store, in one
transaction. -/
theorem AtomicStore.perform_of_ready {s : AtomicStore Database} (hstarted : s.started = true) (h : s.db.Ready)
    (r : Request) : ∃ (db : Database) (journal : List (Deed Transaction Answer)),
      r.perform s = ((r.run s.db.data).1, { s with db }) ∧
      r.perform (s.journaled []) = ((r.run s.db.data).1, { s with db }.journaled journal) ∧
      Deed.OneTransaction journal ∧ db.data = (r.run s.db.data).2 ∧ db.Ready := by
  obtain ⟨last, db, htakes, houtcome, hdata, hready, hone⟩ := h.exists_takes r
  have hbounded : Bounded s.config.maxRetries [] last := by
    refine ⟨fun _ hmem => absurd hmem List.not_mem_nil, Nat.zero_le _, ?_⟩
    rintro ⟨why, hwhy⟩
    exact nomatch (Request.run_store_error (houtcome.symm.trans hwhy)).1
  have hnoting : Takes (StoreM.onFst r.run) (s.journaled []).db last (⟨db, last.asked⟩ : Journaled _ _ Answer) :=
    htakes.noting []
  refine ⟨db, last.asked, ?_, ?_, hone, hdata, hready⟩
  · rw [perform_eq, inTransaction_of_series hstarted (.cons htakes (.nil db)) hbounded, houtcome]
  · rw [perform_eq, inTransaction_of_series (s := s.journaled []) hstarted (.cons hnoting (.nil _)) hbounded, houtcome]
    rfl

end

end Keyspace
