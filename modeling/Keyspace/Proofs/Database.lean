import Keyspace.Database
import Keyspace.Proofs.Batch
import Keyspace.Proofs.RangeSet
import Keyspace.Proofs.StoreM

/-!
What the history of a database says about its past. Each remembered commit declares every key that it
changed, and none between the floor and the newest one is missing; so a transaction that passes the check of
a commit has read nothing that has changed since it began.
-/
namespace Keyspace.Database

/-- The commits after the floor up to a version, each once and the oldest first. -/
structure Consecutive (history : List CommitRecord) (floor version : Nat) : Prop where
  versions : history.map (·.version) = List.range' (floor + 1) history.length
  count : floor + history.length = version

variable {history : List CommitRecord} {floor version : Nat}

theorem Consecutive.exists_mem (h : Consecutive history floor version) {v : Nat} (hlow : floor < v)
    (hhigh : v ≤ version) : ∃ r ∈ history, r.version = v := by
  have hv : v ∈ history.map (·.version) := by
    rw [h.versions, List.mem_range'_1]
    have := h.count
    omega
  simpa using hv

theorem Consecutive.le_version (h : Consecutive history floor version) {r : CommitRecord}
    (hr : r ∈ history) : 0 < r.version ∧ r.version ≤ version := by
  have hv : r.version ∈ history.map (·.version) := List.mem_map_of_mem hr
  rw [h.versions, List.mem_range'_1] at hv
  have := h.count
  omega

theorem Consecutive.append (h : Consecutive history floor version) (written : RangeSet) :
    Consecutive (history ++ [⟨version + 1, written⟩]) floor (version + 1) := by
  have hcount := h.count
  refine ⟨?_, by simp; omega⟩
  rw [List.map_append, h.versions, List.length_append, List.length_singleton, List.range'_1_concat]
  simp
  omega

/-- Dropping the oldest commits moves the floor to the last one dropped. -/
theorem Consecutive.evict (h : Consecutive history floor version) (maxHistory : Nat) :
    Consecutive (evict maxHistory history floor).1 (evict maxHistory history floor).2 version ∧
      ∀ r ∈ (Database.evict maxHistory history floor).1, r ∈ history := by
  induction history generalizing floor with
  | nil => exact ⟨h, fun r hr => hr⟩
  | cons r rs ih =>
    obtain ⟨hversions, hcount⟩ := h
    rw [Database.evict]
    split
    · rw [List.map_cons, List.length_cons, List.range'_succ, List.cons.injEq] at hversions
      have hrest : Consecutive rs r.version version := by
        constructor
        · rw [hversions.1, hversions.2]
        · rw [List.length_cons] at hcount
          omega
      exact ⟨(ih hrest).1, fun x hx => List.mem_cons_of_mem _ ((ih hrest).2 x hx)⟩
    · exact ⟨⟨hversions, hcount⟩, fun x hx => hx⟩

/-- The database has come through data `past v` at each version `v`. -/
structure Recalls (db : Database) (past : Nat → Store) : Prop where
  now : past db.version = db.data
  consecutive : Consecutive db.history db.historyFloor db.version
  /-- A commit changed no key that it does not declare as written. -/
  written : ∀ r ∈ db.history, ∀ k, r.written.contains k = false →
    (past r.version).get? k = (past (r.version - 1)).get? k

variable {db : Database} {past past' : Nat → Store} {t : Transaction}

theorem recalls_create (maxHistory : Nat) (started : Bool) (h : past 0 = .empty) :
    Recalls { create maxHistory with started } past :=
  ⟨h, ⟨rfl, rfl⟩, fun _ hr => absurd hr List.not_mem_nil⟩

/-- A further commit extends the past. -/
theorem Recalls.record (h : db.Recalls past) {b : Batch} (hnew : past' (db.version + 1) = b.apply db.data)
    (hold : ∀ v ≤ db.version, past' v = past v) : (db.record b).Recalls past' := by
  obtain ⟨hconsecutive, hmem⟩ := (h.consecutive.append b.written).evict db.maxHistory
  refine ⟨hnew, hconsecutive, ?_⟩
  intro r hr k hk
  rcases List.mem_append.1 (hmem r hr) with hr | hr
  · have hle := (h.consecutive.le_version hr).2
    rw [hold _ hle, hold _ (by omega)]
    exact h.written r hr k hk
  · obtain rfl := List.mem_singleton.1 hr
    simp only [Nat.add_sub_cancel]
    rw [hnew, hold _ (Nat.le_refl _), h.now]
    exact Batch.get?_apply_of_not_written hk _

/-! ## Transactions -/

theorem enter_apply (db : Database) :
    TransactionalDatabase.enter db =
      if db.started then (.ok (.start db.version db.data), db)
      else (.error (.lifecycle .databaseStopped), db) := by
  cases hstarted : db.started <;>
    simp [TransactionalDatabase.enter, StoreM.bind_apply, hstarted]

/-- Where the reads pass the check, no commit since the start has written one of them. -/
theorem checkReads_eq_ok (h : checkReads t history = .ok ()) {r : CommitRecord} (hr : r ∈ history)
    (hlt : t.startVersion < r.version) {k : Key} (hk : t.reads.contains k = true) :
    r.written.contains k = false := by
  induction history with
  | nil => exact absurd hr List.not_mem_nil
  | cons r' rs ih =>
    rw [checkReads] at h
    split at h
    · simp at h
    · next hcond =>
      rcases List.mem_cons.1 hr with rfl | hr
      · have hempty : (r.written.inter t.reads).isEmpty = true := by simpa [hlt] using hcond
        have := RangeSet.inter_isEmpty_iff.1 hempty k
        grind
      · exact ih h hr

/-- What a commit has been checked for. -/
theorem checkCommit_eq_ok (h : db.checkCommit t = .ok ()) :
    db.started = true ∧ t.expired? = none ∧
      (t.writes.isEmpty = false →
        db.historyFloor ≤ t.startVersion ∧ checkReads t db.history = .ok ()) := by
  simp only [checkCommit, Transaction.checkLimit, bind, Except.bind, throw, throwThe,
    MonadExceptOf.throw] at h
  cases hstarted : db.started with
  | false => simp [hstarted] at h
  | true =>
    cases hexpired : t.expired? with
    | some limit => simp [hstarted, hexpired] at h
    | none =>
      refine ⟨rfl, rfl, ?_⟩
      intro hwrites
      simp only [hstarted, hexpired, hwrites, Bool.not_true, Bool.false_eq_true, if_false] at h
      split at h
      · simp at h
      · next hfloor => exact ⟨Nat.le_of_not_lt hfloor, h⟩

/-- A commit is decided by its check. -/
theorem commit_apply (db : Database) (t : Transaction) :
    TransactionalDatabase.commit t db = match db.checkCommit t with
      | .ok () => (.ok (), if t.writes.isEmpty then db else db.record t.writes)
      | .error why => (.error why, db) := by
  have hcommit : TransactionalDatabase.commit t db =
      (StoreM.ofExcept (db.checkCommit t) >>= fun _ =>
        unless t.writes.isEmpty do set (db.record t.writes) : StoreM Database Unit) db := rfl
  rw [hcommit, StoreM.bind_apply, StoreM.ofExcept_apply]
  cases db.checkCommit t with
  | error why => rfl
  | ok u => cases t.writes.isEmpty <;> rfl

/-- All that a commit can do to the database. -/
theorem commit_cases (db : Database) (t : Transaction) :
    (∃ why, TransactionalDatabase.commit t db = (.error why, db)) ∨
    (t.writes.isEmpty = true ∧ TransactionalDatabase.commit t db = (.ok (), db)) ∨
    (db.checkCommit t = .ok () ∧ t.writes.isEmpty = false ∧
      TransactionalDatabase.commit t db = (.ok (), db.record t.writes)) := by
  rw [commit_apply]
  cases hcheck : db.checkCommit t with
  | error why => exact .inl ⟨why, rfl⟩
  | ok u =>
    cases hwrites : t.writes.isEmpty with
    | true => exact .inr (.inl ⟨rfl, rfl⟩)
    | false => exact .inr (.inr ⟨rfl, rfl, rfl⟩)

/-! ## Transactions that nobody overtakes -/

structure Ready (db : Database) : Prop where
  started : db.started = true
  consecutive : Consecutive db.history db.historyFloor db.version

theorem Ready.start (h : db.Ready) : (TransactionalDatabase.start db).2 = db := by
  obtain ⟨started, _, _, _, _, _⟩ := db
  obtain rfl : started = true := h.started
  rfl

theorem Ready.record (h : db.Ready) (b : Batch) : (db.record b).Ready :=
  ⟨h.started, ((h.consecutive.append b.written).evict db.maxHistory).1⟩

theorem checkReads_of_le (h : ∀ r ∈ history, r.version ≤ t.startVersion) : checkReads t history = .ok () := by
  induction history with
  | nil => rfl
  | cons r rs ih =>
    obtain ⟨hr, hrs⟩ := List.forall_mem_cons.1 h
    have hold : decide (t.startVersion < r.version) = false := decide_eq_false (Nat.not_lt.2 hr)
    rw [checkReads, hold, Bool.false_and, if_neg Bool.false_ne_true, ih hrs]

/-- A transaction that nobody has overtaken may commit. -/
theorem checkCommit_of_current (h : db.Ready) (hversion : t.startVersion = db.version) (hopen : t.expired? = none) :
    db.checkCommit t = .ok () := by
  have hreads : checkReads t db.history = .ok () :=
    checkReads_of_le fun r hr => hversion ▸ (h.consecutive.le_version hr).2
  have hfloor : ¬t.startVersion < db.historyFloor := by
    have := h.consecutive.count
    omega
  cases hwrites : t.writes.isEmpty with
  | true => simp [checkCommit, h.started, Transaction.checkLimit, hopen, hwrites]
  | false =>
    simp [checkCommit, h.started, Transaction.checkLimit, hopen, hwrites, hfloor, hreads]
    rfl

/-- A transaction that was begun on the data as they are commits. -/
theorem Ready.commit (h : db.Ready) (hversion : t.startVersion = db.version) (hopen : t.expired? = none) :
    ∃ db', TransactionalDatabase.commit t db = (.ok (), db') ∧ db'.data = t.writes.apply db.data ∧ db'.Ready := by
  rw [commit_apply, checkCommit_of_current h hversion hopen]
  cases hwrites : t.writes.isEmpty with
  | true => exact ⟨db, rfl, (Batch.apply_of_isEmpty hwrites db.data).symm, h⟩
  | false => exact ⟨_, rfl, rfl, h.record t.writes⟩

/-- What a committing transaction has read is as it was when the transaction began. -/
theorem Recalls.get?_eq (h : db.Recalls past) (hcheck : db.checkCommit t = .ok ())
    (hwrites : t.writes.isEmpty = false) (hstart : t.startVersion ≤ db.version) {k : Key}
    (hk : t.reads.contains k = true) : db.data.get? k = (past t.startVersion).get? k := by
  obtain ⟨hfloor, hreads⟩ := (checkCommit_eq_ok hcheck).2.2 hwrites
  have hsame : ∀ n, t.startVersion + n ≤ db.version →
      (past (t.startVersion + n)).get? k = (past t.startVersion).get? k := by
    intro n
    induction n with
    | zero => exact fun _ => rfl
    | succ n ih =>
      intro hle
      obtain ⟨r, hr, hversion⟩ :=
        h.consecutive.exists_mem (v := t.startVersion + (n + 1)) (by omega) hle
      have hstep := h.written r hr k (checkReads_eq_ok hreads hr (by omega) hk)
      rw [hversion] at hstep
      rw [hstep]
      exact ih (by omega)
  have hlast := hsame (db.version - t.startVersion) (by omega)
  rwa [Nat.add_sub_cancel' hstart, h.now] at hlast

end Keyspace.Database
