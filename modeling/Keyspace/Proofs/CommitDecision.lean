import Keyspace.Proofs.Sessions

/-!
How commits are decided. The history holds the latest commits, as many as the database is to remember, and the floor
is the version before the oldest of them. So a commit is turned down just where the transaction is older than what is
remembered or a later commit has touched a key that it read, and a commit that is turned down leaves no trace.
-/
namespace Keyspace

namespace Batch

def Touches (b : Batch) (k : Key) : Prop :=
  b.removes.contains k = true ∨ (∃ v, b.puts.get? k = some v) ∨ ∃ amount, b.adjusts.get? k = some amount

variable {b b' : Batch} {k x : Key}

theorem touches_put {v : Value} : (b.put k v).Touches x ↔ b.Touches x ∨ x = k := by
  simp only [Touches, put, SortedMap.get?_insert, SortedMap.get?_erase]
  by_cases hx : x = k <;> simp [hx]

theorem touches_removeRange {r : KeyRange} : (b.removeRange r).Touches x ↔ b.Touches x ∨ r.contains x = true := by
  rw [removeRange]
  split
  · next hempty => simp [KeyRange.isEmpty_iff.1 hempty x]
  · simp only [Touches, RangeSet.contains_add, SortedMap.get?_filter_key fun x => !r.contains x]
    cases r.contains x <;> simp

theorem touches_adjust {amount : Int64} : (b.adjust k amount).Touches x ↔ b.Touches x ∨ x = k := by
  simp only [Touches, adjust, SortedMap.get?_insert]
  by_cases hx : x = k <;> simp [hx]

end Batch

namespace Database

/-- The records of all commits, the oldest first. -/
def records (commits : List Batch) : List CommitRecord := commits.mapIdx fun i b => ⟨i + 1, b.written⟩

/-- The oldest commits are dropped, and no others. -/
theorem evict_eq_drop (maxHistory : Nat) (history : List CommitRecord) (floor : Nat) :
    (evict maxHistory history floor).1 = history.drop (history.length - maxHistory) := by
  induction history generalizing floor with
  | nil => rw [evict, List.drop_nil]
  | cons r rs ih =>
    rw [evict]
    split
    · next hlt =>
      have hsucc : (r :: rs).length - maxHistory = (rs.length - maxHistory) + 1 := by
        rw [List.length_cons] at hlt ⊢
        omega
      rw [ih, hsucc, List.drop_succ_cons]
    · next hle =>
      rw [Nat.sub_eq_zero_of_le (Nat.le_of_not_lt hle), List.drop_zero]

structure Remembers (db : Database) (maxHistory : Nat) (commits : List Batch) : Prop where
  limit : db.maxHistory = maxHistory
  version : db.version = commits.length
  history : db.history = (records commits).drop (commits.length - maxHistory)
  floor : db.historyFloor = commits.length - maxHistory

variable {db : Database} {maxHistory : Nat} {commits : List Batch} {t : Transaction}

theorem remembers_create (maxHistory : Nat) (started : Bool) :
    Remembers { create maxHistory with started } maxHistory [] :=
  ⟨rfl, rfl, List.drop_nil.symm, (Nat.zero_sub maxHistory).symm⟩

theorem Remembers.setStarted (h : db.Remembers maxHistory commits) (started : Bool) :
    Remembers { db with started } maxHistory commits :=
  ⟨h.limit, h.version, h.history, h.floor⟩

/-- What a transaction may conflict with is remembered unless too many commits have been made since it began. -/
theorem Remembers.floor_le_iff (h : db.Remembers maxHistory commits) :
    db.historyFloor ≤ t.startVersion ↔ db.version - t.startVersion ≤ maxHistory := by
  rw [h.floor, h.version]
  omega

/-- What is remembered are the records of the last commits, as many as may be kept. -/
theorem Remembers.mem_history_iff (h : db.Remembers maxHistory commits) {r : CommitRecord} :
    r ∈ db.history ↔
      ∃ i b, commits.length - maxHistory ≤ i ∧ commits[i]? = some b ∧ r = ⟨i + 1, b.written⟩ := by
  rw [h.history, records, List.mem_iff_getElem?]
  constructor
  · rintro ⟨j, hj⟩
    rw [List.getElem?_drop, List.getElem?_mapIdx, Option.map_eq_some_iff] at hj
    obtain ⟨b, hb, rfl⟩ := hj
    exact ⟨_, b, Nat.le_add_right .., hb, rfl⟩
  · rintro ⟨i, b, hi, hb, rfl⟩
    refine ⟨i - (commits.length - maxHistory), ?_⟩
    rw [List.getElem?_drop, Nat.add_sub_cancel' hi, List.getElem?_mapIdx, hb]
    rfl

/-- A further commit is remembered, and the oldest one forgotten if there are too many. -/
theorem Remembers.record (h : db.Remembers maxHistory commits)
    (hconsecutive : Consecutive db.history db.historyFloor db.version) (b : Batch) :
    (db.record b).Remembers maxHistory (commits ++ [b]) := by
  have hlength : (records commits).length = commits.length := List.length_mapIdx
  have hhistory : (db.record b).history = (records (commits ++ [b])).drop ((commits ++ [b]).length - maxHistory) := by
    have hall : records (commits ++ [b]) = records commits ++ [⟨db.version + 1, b.written⟩] := by
      rw [records, records, List.mapIdx_concat, h.version]
    have hkept : db.history ++ [⟨db.version + 1, b.written⟩] =
        (records (commits ++ [b])).drop (commits.length - maxHistory) := by
      rw [hall, h.history, List.drop_append_of_le_length (by omega)]
    change (evict db.maxHistory (db.history ++ [_]) db.historyFloor).1 = _
    rw [evict_eq_drop, hkept, h.limit, List.drop_drop]
    congr 1
    simp only [List.length_drop, hall, List.length_append, List.length_singleton, hlength]
    omega
  have hcount := ((hconsecutive.append b.written).evict db.maxHistory).1.count
  change (db.record b).historyFloor + (db.record b).history.length = db.version + 1 at hcount
  refine ⟨h.limit, ?_, hhistory, ?_⟩
  · rw [List.length_append, List.length_singleton, ← h.version]
    rfl
  · rw [hhistory, h.version] at hcount
    simp only [List.length_drop, records, List.length_mapIdx, List.length_append, List.length_singleton] at hcount ⊢
    omega

/-! ## The check -/

/-- A commit made since the transaction began touches a key that the transaction has read. -/
def Overtaken (commits : List Batch) (t : Transaction) : Prop :=
  ∃ version b k, t.startVersion < version ∧ commits[version - 1]? = some b ∧ b.Touches k ∧ t.reads.contains k = true

/-- A check of the reads succeeds, or names what a commit since the start has written and the transaction has read. -/
theorem checkReads_cases (t : Transaction) (history : List CommitRecord) :
    checkReads t history = .ok () ∨
    ∃ r ∈ history, t.startVersion < r.version ∧ (∃ k, r.written.contains k = true ∧ t.reads.contains k = true) ∧
      checkReads t history = .error (.retry (.modified (r.written.inter t.reads))) := by
  induction history with
  | nil => exact .inl rfl
  | cons r rs ih =>
    rw [checkReads]
    split
    · next hcond =>
      rw [Bool.and_eq_true, decide_eq_true_eq, Bool.not_eq_true'] at hcond
      obtain ⟨hlt, hkeys⟩ := hcond
      have hnot : ¬∀ k, (r.written.inter t.reads).contains k = false := fun hall =>
        Bool.false_ne_true (hkeys.symm.trans (RangeSet.isEmpty_iff.2 hall))
      obtain ⟨k, hk⟩ := Classical.not_forall.1 hnot
      exact .inr ⟨r, List.mem_cons_self, hlt, ⟨k, RangeSet.contains_inter.1 (eq_true_of_ne_false hk)⟩, rfl⟩
    · rcases ih with hok | ⟨r', hr', hrest⟩
      · exact .inl hok
      · exact .inr ⟨r', List.mem_cons_of_mem _ hr', hrest⟩

theorem checkCommit_of_stopped (hstopped : db.started = false) :
    db.checkCommit t = .error (.lifecycle .databaseStopped) := by
  rw [checkCommit, hstopped]
  rfl

theorem checkCommit_of_expired (hstarted : db.started = true) {limit : Nat} (hexpired : t.expired? = some limit) :
    db.checkCommit t = .error (.retry (.timedOut limit)) := by
  rw [checkCommit, hstarted, Transaction.checkLimit, hexpired]
  rfl

/-- What decides in an open transaction, in this order: whether it writes, whether its start is remembered, and what
it has read. -/
theorem checkCommit_of_open (hstarted : db.started = true) (hopen : t.expired? = none) :
    db.checkCommit t =
      if t.writes.isEmpty then .ok ()
      else if t.startVersion < db.historyFloor then .error (.retry (.historyTruncated t.startVersion))
      else checkReads t db.history := by
  rw [checkCommit, hstarted, Transaction.checkLimit, hopen]
  cases t.writes.isEmpty with
  | true => rfl
  | false =>
    by_cases hold : t.startVersion < db.historyFloor
    · rw [if_pos hold, if_pos hold]
      rfl
    · rw [if_neg hold, if_neg hold]
      rfl

theorem checkCommit_of_recent (hstarted : db.started = true) (hopen : t.expired? = none)
    (hwrites : t.writes.isEmpty = false) (hfloor : db.historyFloor ≤ t.startVersion) :
    db.checkCommit t = checkReads t db.history := by
  rw [checkCommit_of_open hstarted hopen, hwrites, if_neg Bool.false_ne_true, if_neg (Nat.not_lt.2 hfloor)]

/-- As long as the start of a transaction is remembered, the records tell whether it has been overtaken. -/
theorem Remembers.overtaken_iff (h : db.Remembers maxHistory commits) (hrecent : db.historyFloor ≤ t.startVersion) :
    Overtaken commits t ↔ ∃ r ∈ db.history, t.startVersion < r.version ∧
      ∃ k, r.written.contains k = true ∧ t.reads.contains k = true := by
  constructor
  · rintro ⟨version, b, k, hlt, hb, htouches, hread⟩
    have hversion : version - 1 + 1 = version := by omega
    have hkept : commits.length - maxHistory ≤ version - 1 := by
      have := h.floor
      omega
    refine ⟨⟨version, b.written⟩, h.mem_history_iff.2 ⟨version - 1, b, hkept, hb, by rw [hversion]⟩, hlt, k, ?_, hread⟩
    exact Batch.contains_written.2 htouches
  · rintro ⟨r, hr, hlt, k, hwritten, hread⟩
    obtain ⟨i, b, -, hb, rfl⟩ := h.mem_history_iff.1 hr
    exact ⟨i + 1, b, k, hlt, hb, Batch.contains_written.1 hwritten, hread⟩

/-- How the commit of a transaction comes out, on a database that remembers some number of commits. The first of the
cases that applies decides. -/
structure CommitDecided (db : Database) (maxHistory : Nat) (commits : List Batch) (t : Transaction) : Prop where
  stopped : db.started = false → TransactionalDatabase.commit t db = (.error (.lifecycle .databaseStopped), db)
  expired : db.started = true → ∀ limit, t.expired? = some limit →
    TransactionalDatabase.commit t db = (.error (.retry (.timedOut limit)), db)
  idle : db.started = true → t.expired? = none → t.writes.isEmpty = true →
    TransactionalDatabase.commit t db = (.ok (), db)
  forgotten : db.started = true → t.expired? = none → t.writes.isEmpty = false →
    maxHistory < db.version - t.startVersion →
    TransactionalDatabase.commit t db = (.error (.retry (.historyTruncated t.startVersion)), db)
  overtaken : db.started = true → t.expired? = none → t.writes.isEmpty = false →
    db.version - t.startVersion ≤ maxHistory → Overtaken commits t →
    ∃ keys, TransactionalDatabase.commit t db = (.error (.retry (.modified keys)), db)
  accepted : db.started = true → t.expired? = none → t.writes.isEmpty = false →
    db.version - t.startVersion ≤ maxHistory → ¬Overtaken commits t →
    ∃ db', TransactionalDatabase.commit t db = (.ok (), db') ∧ db'.version = db.version + 1 ∧
      db'.data = t.writes.apply db.data ∧ db'.Remembers maxHistory (commits ++ [t.writes])
  untouched : ∀ why db', TransactionalDatabase.commit t db = (.error why, db') → db' = db

/-- The check before a commit decides as the commits that were made say. -/
theorem Remembers.commitDecided (h : db.Remembers maxHistory commits)
    (hconsecutive : Consecutive db.history db.historyFloor db.version) (t : Transaction) :
    db.CommitDecided maxHistory commits t where
  stopped hstopped := by rw [commit_apply, checkCommit_of_stopped hstopped]
  expired hstarted limit hexpired := by rw [commit_apply, checkCommit_of_expired hstarted hexpired]
  idle hstarted hopen hwrites := by
    rw [commit_apply, checkCommit_of_open hstarted hopen, if_pos hwrites]
    exact congrArg (Prod.mk _) (if_pos hwrites)
  forgotten hstarted hopen hwrites hold := by
    have hfloor : t.startVersion < db.historyFloor := Nat.lt_of_not_le (mt h.floor_le_iff.1 (Nat.not_le_of_lt hold))
    rw [commit_apply, checkCommit_of_open hstarted hopen, hwrites, if_neg Bool.false_ne_true, if_pos hfloor]
  overtaken hstarted hopen hwrites hrecent hovertaken := by
    have hfloor := h.floor_le_iff.2 hrecent
    obtain ⟨r, hr, hlt, k, hwritten, hread⟩ := (h.overtaken_iff hfloor).1 hovertaken
    rw [commit_apply, checkCommit_of_recent hstarted hopen hwrites hfloor]
    rcases checkReads_cases t db.history with hok | ⟨r', -, -, -, hfails⟩
    · exact absurd hwritten (Bool.eq_false_iff.1 (checkReads_eq_ok hok hr hlt hread))
    · rw [hfails]
      exact ⟨_, rfl⟩
  accepted hstarted hopen hwrites hrecent hnot := by
    have hfloor := h.floor_le_iff.2 hrecent
    rw [commit_apply, checkCommit_of_recent hstarted hopen hwrites hfloor]
    rcases checkReads_cases t db.history with hok | ⟨r, hr, hlt, hcommon, -⟩
    · rw [hok]
      refine ⟨_, congrArg (Prod.mk _) (if_neg (Bool.eq_false_iff.1 hwrites)), rfl, rfl, h.record hconsecutive _⟩
    · exact absurd ((h.overtaken_iff hfloor).2 ⟨r, hr, hlt, hcommon⟩) hnot
  untouched why db' hcommit := by
    rw [commit_apply] at hcommit
    cases hcheck : db.checkCommit t with
    | error why' =>
      rw [hcheck] at hcommit
      exact (congrArg Prod.snd hcommit).symm
    | ok u =>
      rw [hcheck] at hcommit
      cases congrArg Prod.fst hcommit

end Database

/-! ## What commits touch -/

/-- A call at fault is about to change no key. -/
theorem Call.not_reaches_of_fault {c : Call} {why : StoreError} (h : c.fault? = some why) (k : Key) : ¬c.Reaches k := by
  cases c with
  | write w =>
    cases w with
    | removeRange low high =>
      rintro ⟨hlow, hhigh⟩
      have hlow : Bound.key low ≤ Bound.key k := hlow
      rw [fault?, KeyRange.between_of_le (Std.le_of_lt (Std.lt_of_le_of_lt hlow hhigh))] at h
      cases h
    | _ => cases h
  | _ => cases h

/-- A call of an open transaction puts the keys into the batch that it is about to change. -/
theorem Transaction.touches_run {t : Transaction} (h : t.expired? = none) (c : Call) {k : Key} :
    (c.run t).2.writes.Touches k ↔ t.writes.Touches k ∨ c.Reaches k := by
  cases hc : c.fault? with
  | some why =>
    rw [run_of_fault hc]
    exact (or_iff_left (Call.not_reaches_of_fault hc k)).symm
  | none =>
    cases c with
    | get x =>
      rw [Call.run, StoreM.map_apply, get?_apply h]
      exact (or_iff_left id).symm
    | firstAtLeast x =>
      obtain ⟨r, hr, -⟩ := firstAtLeast_apply h x
      rw [Call.run, StoreM.map_apply, hr]
      exact (or_iff_left id).symm
    | lastBelow b =>
      obtain ⟨r, hr, -⟩ := lastBelow_apply h b
      rw [Call.run, StoreM.map_apply, hr]
      exact (or_iff_left id).symm
    | write w =>
      cases w with
      | put x v =>
        rw [Call.run, StoreM.map_apply, Write.perform, put_apply h]
        exact Batch.touches_put
      | remove x =>
        rw [Call.run, StoreM.map_apply, Write.perform, remove_apply h]
        exact Batch.touches_removeRange.trans (or_congr_right KeyRange.contains_single)
      | adjust x amount =>
        rw [Call.run, StoreM.map_apply, Write.perform, adjust_apply h]
        exact Batch.touches_adjust
      | removeRange low high =>
        by_cases hle : Bound.key low ≤ high
        · rw [Call.run, StoreM.map_apply, Write.perform, removeRange_apply h (KeyRange.between_of_le hle)]
          exact Batch.touches_removeRange.trans (or_congr_right KeyRange.contains_iff)
        · simp [Call.fault?, KeyRange.between, KeyRange.between?, hle] at hc

namespace Session

/-- What a step makes of a session, as far as its calls, its writes and its reads go. -/
def Becomes (x y : Session) : Prop :=
  (∃ c, y = x.call c) ∨
    y.transaction.writes = x.transaction.writes ∧ y.transaction.reads = x.transaction.reads ∧ y.log = x.log

/-- The batch of the session touches just the keys that its calls are about to change. -/
def Declares (x : Session) : Prop := ∀ k, x.transaction.writes.Touches k ↔ ∃ c ∈ x.calls, c.Reaches k

variable {x y : Session}

theorem declares_start (version : Nat) (data : Store) : Declares ⟨.start version data, [], true⟩ := by
  intro k
  constructor
  · rintro (h | ⟨v, h⟩ | ⟨amount, h⟩)
    · cases h
    · cases h
    · cases h
  · rintro ⟨c, hc, -⟩
    exact absurd hc List.not_mem_nil

/-- A call declares the keys that it is about to change, and no others. -/
theorem Declares.call (h : x.Declares) (c : Call) : (x.call c).Declares := by
  intro k
  rcases x.call_cases c with ⟨hanswers, hanswered⟩ | ⟨htransaction, hsame, -⟩
  · have htouches : (c.run x.transaction).2.writes.Touches k ↔ x.transaction.writes.Touches k ∨ c.Reaches k := by
      rcases hanswers with hopen | ⟨why, hc⟩
      · exact Transaction.touches_run hopen c
      · rw [Transaction.run_of_fault hc]
        exact (or_iff_left (Call.not_reaches_of_fault hc k)).symm
    rw [calls, hanswered, List.map_append]
    refine htouches.trans ((or_congr_left (h k)).trans ?_)
    simp [calls, or_and_right, exists_or]
  · rw [htransaction, calls, hsame]
    exact h k

theorem Declares.becomes (h : x.Declares) (hy : x.Becomes y) : y.Declares := by
  rcases hy with ⟨c, rfl⟩ | ⟨hwrites, -, hlog⟩
  · exact h.call c
  · intro k
    rw [hwrites, h k, calls, calls, answered, answered, hlog]

end Session

namespace Server

/-- What each commit with writes wrote. -/
def commits (s : Server) : List Batch := s.order.map (·.transaction.writes)

/-- A step either starts or stops the database at most, or commits the writes of a session. -/
theorem step_database (s : Server) (e : Event) :
    (∃ started, (s.step e).database = { s.database with started } ∧ (s.step e).order = s.order) ∨
    ∃ x ∈ s.sessions, (s.step e).database = s.database.record x.transaction.writes ∧
      (s.step e).order = s.order ++ [x] := by
  cases e with
  | start => exact .inl ⟨true, rfl, rfl⟩
  | stop => exact .inl ⟨false, rfl, rfl⟩
  | enter =>
    rw [step, Database.enter_apply]
    cases hstarted : s.database.started <;> exact .inl ⟨s.database.started, rfl, rfl⟩
  | call i c =>
    rw [step]
    cases s.running? i <;> exact .inl ⟨s.database.started, rfl, rfl⟩
  | setLimit i ms =>
    rw [step]
    cases s.running? i <;> exact .inl ⟨s.database.started, rfl, rfl⟩
  | elapse ms => exact .inl ⟨s.database.started, rfl, rfl⟩
  | commit i =>
    rw [step]
    cases hx : s.running? i with
    | none => exact .inl ⟨s.database.started, rfl, rfl⟩
    | some x =>
      dsimp only
      rcases s.database.commit_cases x.transaction with
        ⟨why, hcommit⟩ | ⟨hwrites, hcommit⟩ | ⟨hcheck, hwrites, hcommit⟩
      · rw [hcommit]
        exact .inl ⟨s.database.started, rfl, rfl⟩
      · rw [hcommit]
        exact .inl ⟨s.database.started, rfl, if_pos hwrites⟩
      · rw [hcommit]
        exact .inr ⟨x, mem_of_running? hx, rfl, if_neg (Bool.eq_false_iff.1 hwrites)⟩
  | rollback i =>
    rw [step]
    cases s.running? i <;> exact .inl ⟨s.database.started, rfl, rfl⟩

/-- A session after a step is new, or has become of one that was there before. -/
theorem mem_sessions_step {s : Server} {e : Event} {y : Session} (hy : y ∈ (s.step e).sessions) :
    (∃ version data, y = ⟨.start version data, [], true⟩) ∨ ∃ x ∈ s.sessions, x.Becomes y := by
  have hold (hy : y ∈ s.sessions) : ∃ x ∈ s.sessions, x.Becomes y := ⟨y, hy, .inr ⟨rfl, rfl, rfl⟩⟩
  have hset {i : Nat} {x x' : Session} (hx : s.running? i = some x) (hy : y ∈ s.sessions.set i x')
      (hx' : x.Becomes x') : ∃ x ∈ s.sessions, x.Becomes y := by
    rcases List.mem_or_eq_of_mem_set hy with hy | rfl
    · exact hold hy
    · exact ⟨x, mem_of_running? hx, hx'⟩
  cases e with
  | start => exact .inr (hold hy)
  | stop => exact .inr (hold hy)
  | enter =>
    rw [step, Database.enter_apply] at hy
    cases hstarted : s.database.started with
    | false =>
      rw [hstarted] at hy
      exact .inr (hold hy)
    | true =>
      rw [hstarted] at hy
      rcases List.mem_append.1 hy with hy | hy
      · exact .inr (hold hy)
      · exact .inl ⟨_, _, List.mem_singleton.1 hy⟩
  | elapse ms =>
    obtain ⟨x, hx, rfl⟩ := List.mem_map.1 hy
    exact .inr ⟨x, hx, .inr ⟨rfl, rfl, rfl⟩⟩
  | call i c =>
    rw [step] at hy
    cases hx : s.running? i with
    | none =>
      rw [hx] at hy
      exact .inr (hold hy)
    | some x =>
      rw [hx] at hy
      exact .inr (hset hx hy (.inl ⟨c, rfl⟩))
  | setLimit i ms =>
    rw [step] at hy
    cases hx : s.running? i with
    | none =>
      rw [hx] at hy
      exact .inr (hold hy)
    | some x =>
      rw [hx] at hy
      exact .inr (hset hx hy (.inr ⟨rfl, rfl, rfl⟩))
  | commit i =>
    rw [step] at hy
    cases hx : s.running? i with
    | none =>
      rw [hx] at hy
      exact .inr (hold hy)
    | some x =>
      rw [hx] at hy
      dsimp only at hy
      rcases s.database.commit_cases x.transaction with ⟨why, hcommit⟩ | ⟨-, hcommit⟩ | ⟨-, -, hcommit⟩
      all_goals
        rw [hcommit] at hy
        exact .inr (hset hx hy (.inr ⟨rfl, rfl, rfl⟩))
  | rollback i =>
    rw [step] at hy
    cases hx : s.running? i with
    | none =>
      rw [hx] at hy
      exact .inr (hold hy)
    | some x =>
      rw [hx] at hy
      exact .inr (hset hx hy (.inr ⟨rfl, rfl, rfl⟩))

structure Accounted (s : Server) (maxHistory : Nat) : Prop where
  sound : s.Sound
  remembers : s.database.Remembers maxHistory s.commits
  sessions : ∀ x ∈ s.sessions, x.Declares
  order : ∀ x ∈ s.order, x.Declares

variable {s : Server} {maxHistory : Nat}

theorem accounted_begin (maxHistory : Nat) : (begin maxHistory).Accounted maxHistory where
  sound := sound_begin maxHistory
  remembers := Database.remembers_create maxHistory true
  sessions _ hx := absurd hx List.not_mem_nil
  order _ hx := absurd hx List.not_mem_nil

/-- No event upsets the account of the commits. -/
theorem Accounted.step (h : s.Accounted maxHistory) (e : Event) : (s.step e).Accounted maxHistory := by
  have hsessions : ∀ y ∈ (s.step e).sessions, y.Declares := by
    intro y hy
    rcases mem_sessions_step hy with ⟨version, data, rfl⟩ | ⟨x, hx, hbecomes⟩
    · exact Session.declares_start version data
    · exact (h.sessions x hx).becomes hbecomes
  rcases s.step_database e with ⟨started, hdatabase, horder⟩ | ⟨x, hx, hdatabase, horder⟩
  · refine ⟨h.sound.step e, ?_, hsessions, horder ▸ h.order⟩
    rw [hdatabase, commits, horder]
    exact h.remembers.setStarted started
  · refine ⟨h.sound.step e, ?_, hsessions, ?_⟩
    · rw [hdatabase, commits, horder, List.map_append]
      exact h.remembers.record h.sound.recalls.consecutive _
    · intro y hy
      rw [horder] at hy
      rcases List.mem_append.1 hy with hy | hy
      · exact h.order y hy
      · exact List.mem_singleton.1 hy ▸ h.sessions x hx

theorem Accounted.run (h : s.Accounted maxHistory) (es : List Event) : (s.run es).Accounted maxHistory := by
  induction es generalizing s with
  | nil => exact h
  | cons e es ih => exact ih (h.step e)

/-- The commit of a running session is decided by what has happened since it began. Whatever has happened on a new
database, the history holds the latest commits in their order, as many as are to be remembered, and the floor is the
version before them; each commit has touched the keys that the calls of its session were about to change; and a commit
comes out by the state of the database, the age of the session, its writes, the number of commits since it began and
whether these touched what it has read. One that fails changes nothing. -/
theorem run_commitDecided (maxHistory : Nat) (es : List Event) :
    let s := (begin maxHistory).run es
    s.database.Remembers maxHistory s.commits ∧
    (∀ x ∈ s.order, ∀ k, x.transaction.writes.Touches k ↔ ∃ c ∈ x.calls, c.Reaches k) ∧
    ∀ i x, s.running? i = some x → x.transaction.startVersion ≤ s.database.version ∧
      s.database.CommitDecided maxHistory s.commits x.transaction := by
  intro s
  have h : s.Accounted maxHistory := (accounted_begin maxHistory).run es
  refine ⟨h.remembers, h.order, fun i x hx => ⟨?_, h.remembers.commitDecided h.sound.recalls.consecutive _⟩⟩
  exact h.sound.version ▸ (h.sound.sessions x (mem_of_running? hx)).start

/-- A transaction that has read a key is overtaken by a commit on this key and one on another. A history of one commit
no longer tells; in one of two the conflict is found. -/
example :
    let es : List Event := [.enter, .call 0 (.get [1]), .call 0 (.write (.put [2] [7])), .enter,
      .call 1 (.write (.adjust [1] 3)), .commit 1, .enter, .call 2 (.write (.put [3] [7])), .commit 2]
    let conflict (maxHistory : Nat) : Option StoreError := do
      let s := (begin maxHistory).run es
      let x ← s.running? 0
      let .error why := (TransactionalDatabase.commit x.transaction s.database).1 | none
      return why
    conflict 1 = some (.retry (.historyTruncated 0)) ∧
      conflict 2 = some (.retry (.modified (.single (.single [1])))) := by
  decide +kernel

end Server

end Keyspace
