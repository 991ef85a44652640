import Keyspace.Proofs.Database
import Keyspace.Proofs.Transaction

/-!
Any number of transactions on one database, with their steps in any order. Whatever the order, the database
comes to hold what a plain store holds after the calls of the transactions that committed, one transaction
after the other, and each transaction is answered as in that serial run.
-/
namespace Keyspace

structure Session where
  transaction : Transaction
  log : List (Call × Outcome)
  /-- Neither committed nor rolled back yet. -/
  running : Bool

namespace Session

/-- Whether a call was turned down because its transaction had been open for too long. -/
def isRefused : Outcome → Bool
  | .error why => why.isRetryable
  | .ok _ => false

/-- The calls that were not turned down. -/
def answered (x : Session) : List (Call × Outcome) := x.log.filter fun e => !isRefused e.2

def calls (x : Session) : List Call := x.answered.map (·.1)

def outcomes (x : Session) : List Outcome := x.answered.map (·.2)

def call (c : Call) (x : Session) : Session :=
  let (outcome, t) := c.run x.transaction
  { x with transaction := t, log := x.log ++ [(c, outcome)] }

end Session

structure Server where
  database : Database
  sessions : List Session
  /-- The sessions whose commit succeeded and had something to write, in the order of their commits. -/
  order : List Session

/-- The next thing that happens; a session is named by how many were opened before it. -/
inductive Event where
  | start
  | stop
  | enter
  | call (i : Nat) (c : Call)
  | setLimit (i : Nat) (ms : Nat)
  | elapse (ms : Nat)
  | commit (i : Nat)
  | rollback (i : Nat)

namespace Server

def begin (maxHistory : Nat) : Server := ⟨{ Database.create maxHistory with started := true }, [], []⟩

def running? (s : Server) (i : Nat) : Option Session := s.sessions[i]?.filter (·.running)

/-- Takes the step that an event asks for. One that names no running session does nothing. -/
def step (s : Server) : Event → Server
  | .start => { s with database := (TransactionalDatabase.start s.database).2 }
  | .stop => { s with database := (TransactionalDatabase.stop s.database).2 }
  | .enter =>
    match TransactionalDatabase.enter s.database with
    | (.ok t, database) => { s with database, sessions := s.sessions ++ [⟨t, [], true⟩] }
    | (.error _, database) => { s with database }
  | .call i c =>
    match s.running? i with
    | some x => { s with sessions := s.sessions.set i (x.call c) }
    | none => s
  | .setLimit i ms =>
    match s.running? i with
    | some x =>
      let (_, (transaction, database)) := TransactionalDatabase.setLimit ms (x.transaction, s.database)
      { s with database, sessions := s.sessions.set i { x with transaction } }
    | none => s
  | .elapse ms =>
    { s with sessions := s.sessions.map fun x => { x with transaction := x.transaction.elapse ms } }
  | .commit i =>
    match s.running? i with
    | some x =>
      let sessions := s.sessions.set i { x with running := false }
      match TransactionalDatabase.commit x.transaction s.database with
      | (.ok (), database) =>
        { database, sessions, order := if x.transaction.writes.isEmpty then s.order else s.order ++ [x] }
      | (.error _, database) => { s with database, sessions }
    | none => s
  | .rollback i =>
    match s.running? i with
    | some x =>
      let (_, database) := TransactionalDatabase.rollback x.transaction s.database
      { s with database, sessions := s.sessions.set i { x with running := false } }
    | none => s

def run (s : Server) (events : List Event) : Server := events.foldl step s

/-- What a plain store holds after the calls of some sessions, one session after the other. -/
def serial (xs : List Session) : Store := xs.foldl (fun m x => (Call.replay x.calls m).2) .empty

/-! ## What each step keeps -/

end Server

namespace Session

variable {x : Session} {order : List Session}

/-- The session reads the data after the commits before its start, and is answered as a plain store with that
data answers. -/
structure Sound (order : List Session) (x : Session) : Prop where
  start : x.transaction.startVersion ≤ order.length
  follows : x.transaction.Follows (Server.serial (order.take x.transaction.startVersion)) x.calls x.outcomes
  unlimited : x.transaction.limit = none → x.answered = x.log

theorem Sound.append (h : x.Sound order) (y : Session) : x.Sound (order ++ [y]) := by
  refine ⟨?_, ?_, h.unlimited⟩
  · have := h.start
    rw [List.length_append]
    omega
  · rw [List.take_append_of_le_length h.start]
    exact h.follows

theorem sound_start (order : List Session) :
    Sound order ⟨.start order.length (Server.serial order), [], true⟩ := by
  refine ⟨Nat.le_refl _, ?_, fun _ => rfl⟩
  have htake : order.take order.length = order := List.take_length
  show Transaction.Follows _ (Server.serial (order.take order.length)) [] []
  rw [htake]
  exact Transaction.follows_start ..

theorem Sound.elapse (h : x.Sound order) (ms : Nat) :
    Sound order { x with transaction := x.transaction.elapse ms } :=
  ⟨h.start, ⟨h.follows.shows, h.follows.answers, h.follows.writes, h.follows.reads⟩, h.unlimited⟩

theorem Sound.setLimit (h : x.Sound order) (ms : Nat) :
    Sound order { x with transaction := x.transaction.setLimit ms } :=
  ⟨h.start, ⟨h.follows.shows, h.follows.answers, h.follows.writes, h.follows.reads⟩, nofun⟩

theorem Sound.stop (h : x.Sound order) : Sound order { x with running := false } :=
  ⟨h.start, h.follows, h.unlimited⟩

theorem answered_call_of_kept {c : Call} (h : isRefused (c.run x.transaction).1 = false) :
    (x.call c).answered = x.answered ++ [(c, (c.run x.transaction).1)] := by
  change (x.log ++ [(c, (c.run x.transaction).1)]).filter _ = _
  rw [List.filter_append, answered]
  simp [h]

theorem answered_call_of_refused {c : Call} (h : isRefused (c.run x.transaction).1 = true) :
    (x.call c).answered = x.answered := by
  change (x.log ++ [(c, (c.run x.transaction).1)]).filter _ = _
  rw [List.filter_append, answered]
  simp [h]

theorem isRefused_run_of_open (h : x.transaction.expired? = none) (c : Call) :
    isRefused (c.run x.transaction).1 = false := by
  have he := Transaction.run_effect h c
  generalize c.run x.transaction = result at he
  cases he with
  | fault why hc => exact Call.isRetryable_of_fault hc
  | read => rfl
  | write => rfl

/-- A call of an open transaction, and one that is at fault itself, joins those that are answered. Any other is turned down
and has no effect, which takes a time limit. -/
theorem call_cases (x : Session) (c : Call) :
    ((x.transaction.expired? = none ∨ ∃ why, c.fault? = some why) ∧
      (x.call c).answered = x.answered ++ [(c, (c.run x.transaction).1)]) ∨
    ((x.call c).transaction = x.transaction ∧ (x.call c).answered = x.answered ∧ x.transaction.limit ≠ none) := by
  cases hexpired : x.transaction.expired? with
  | none => exact .inl ⟨.inl rfl, answered_call_of_kept (isRefused_run_of_open hexpired c)⟩
  | some limit =>
    cases hc : c.fault? with
    | some why =>
      have hnot : isRefused (c.run x.transaction).1 = false := by
        rw [Transaction.run_of_fault hc]
        exact Call.isRetryable_of_fault hc
      exact .inl ⟨.inr ⟨why, rfl⟩, answered_call_of_kept hnot⟩
    | none =>
      have hrun := Transaction.run_of_expired hexpired hc
      have hlimit : x.transaction.limit ≠ none := by
        intro hnone
        simp [Transaction.expired?, hnone] at hexpired
      exact .inr ⟨congrArg Prod.snd hrun, answered_call_of_refused (by rw [hrun]; rfl), hlimit⟩

/-- A call is answered as in the serial run, or turned down without effect. -/
theorem Sound.call (h : x.Sound order) (c : Call) : Sound order (x.call c) := by
  have hextends := Transaction.run_extends c x.transaction
  have hbase : (x.call c).transaction.startVersion = x.transaction.startVersion := hextends.startVersion
  rcases x.call_cases c with ⟨hanswers, hanswered⟩ | ⟨htransaction, hsame, hlimit⟩
  · have hfollows : (c.run x.transaction).2.Follows (Server.serial (order.take x.transaction.startVersion))
        (x.calls ++ [c]) (x.outcomes ++ [(c.run x.transaction).1]) := by
      rcases hanswers with hopen | ⟨why, hc⟩
      · exact h.follows.run hopen c
      · rw [Transaction.run_of_fault hc]
        exact h.follows.fault hc
    refine ⟨hbase ▸ h.start, ?_, ?_⟩
    · rw [hbase, calls, outcomes, hanswered, List.map_append, List.map_append]
      exact hfollows
    · intro hlimit
      rw [hanswered, h.unlimited (hextends.limit.symm.trans hlimit)]
      rfl
  · refine ⟨hbase ▸ h.start, ?_, ?_⟩
    · rw [htransaction, calls, outcomes, hsame]
      exact h.follows
    · rw [htransaction]
      exact fun hnone => absurd hnone hlimit

end Session

namespace Server

variable {s : Server}

theorem serial_append (xs : List Session) (x : Session) :
    serial (xs ++ [x]) = (Call.replay x.calls (serial xs)).2 := by
  simp [serial]

structure Sound (s : Server) : Prop where
  recalls : s.database.Recalls fun v => serial (s.order.take v)
  version : s.database.version = s.order.length
  order : ∀ i (hi : i < s.order.length),
    (Call.replay s.order[i].calls (serial (s.order.take i))).1 = s.order[i].outcomes
  sessions : ∀ x ∈ s.sessions, x.Sound s.order

theorem Sound.data (h : s.Sound) : s.database.data = serial s.order := by
  have hnow := h.recalls.now
  rw [h.version, List.take_length] at hnow
  exact hnow.symm

theorem sound_begin (maxHistory : Nat) : (begin maxHistory).Sound where
  recalls := Database.recalls_create maxHistory true rfl
  version := rfl
  order i hi := absurd hi (Nat.not_lt_zero i)
  sessions _ hx := absurd hx List.not_mem_nil

theorem mem_of_running? {i : Nat} {x : Session} (hx : s.running? i = some x) : x ∈ s.sessions := by
  rw [running?, Option.filter_eq_some_iff] at hx
  exact List.mem_of_getElem? hx.1

/-- Replacing a session by a sound one keeps the rest. -/
theorem Sound.set (h : s.Sound) (i : Nat) {x : Session} (hx : x.Sound s.order) :
    Sound { s with sessions := s.sessions.set i x } where
  recalls := h.recalls
  version := h.version
  order := h.order
  sessions y hy := by
    rcases List.mem_or_eq_of_mem_set hy with hy | rfl
    · exact h.sessions y hy
    · exact hx

/-- A commit that passes its check puts the session last in the serial run. -/
theorem Sound.commit (h : s.Sound) {x : Session} (hx : x.Sound s.order)
    (hcheck : s.database.checkCommit x.transaction = .ok ()) (hwrites : x.transaction.writes.isEmpty = false) :
    Sound { s with database := s.database.record x.transaction.writes, order := s.order ++ [x] } := by
  have hreads : ∀ k, x.transaction.reads.contains k = true →
      s.database.data.get? k = (serial (s.order.take x.transaction.startVersion)).get? k := fun k hk =>
    h.recalls.get?_eq hcheck hwrites (h.version ▸ hx.start) hk
  have hanswers : (Call.replay x.calls (serial s.order)).1 = x.outcomes :=
    hx.follows.reads _ (h.data ▸ hreads)
  have hdata : x.transaction.writes.apply s.database.data = serial (s.order ++ [x]) := by
    rw [hx.follows.writes, h.data, serial_append]
  have htake : ∀ v ≤ s.order.length, (s.order ++ [x]).take v = s.order.take v := fun v hv =>
    List.take_append_of_le_length hv
  refine ⟨h.recalls.record ?_ ?_, ?_, ?_, fun y hy => (h.sessions y hy).append x⟩
  · rw [h.version, hdata, List.take_of_length_le (by simp)]
  · intro v hv
    rw [htake v (h.version ▸ hv)]
  · change s.database.version + 1 = _
    rw [h.version, List.length_append, List.length_singleton]
  · intro i hi
    rw [List.length_append, List.length_singleton] at hi
    rw [htake i (Nat.le_of_lt_succ hi)]
    rcases Nat.lt_or_eq_of_le (Nat.le_of_lt_succ hi) with hlt | rfl
    · rw [List.getElem_append_left hlt]
      exact h.order i hlt
    · rw [List.getElem_append_right (Nat.le_refl _), List.take_length]
      simpa using hanswers

/-- Each event keeps the account of all sessions by the commits in their order. -/
theorem Sound.step (h : s.Sound) (e : Event) : (s.step e).Sound := by
  cases e with
  | start => exact ⟨⟨h.recalls.now, h.recalls.consecutive, h.recalls.written⟩, h.version, h.order, h.sessions⟩
  | stop => exact ⟨⟨h.recalls.now, h.recalls.consecutive, h.recalls.written⟩, h.version, h.order, h.sessions⟩
  | enter =>
    rw [Server.step, Database.enter_apply]
    cases s.database.started with
    | false => exact h
    | true =>
      refine ⟨h.recalls, h.version, h.order, ?_⟩
      intro x hx
      rcases List.mem_append.1 hx with hx | hx
      · exact h.sessions x hx
      · obtain rfl := List.mem_singleton.1 hx
        rw [h.version, h.data]
        exact Session.sound_start s.order
  | call i c =>
    rw [Server.step]
    cases hx : s.running? i with
    | none => exact h
    | some x => exact h.set i ((h.sessions x (mem_of_running? hx)).call c)
  | setLimit i ms =>
    rw [Server.step]
    cases hx : s.running? i with
    | none => exact h
    | some x => exact h.set i ((h.sessions x (mem_of_running? hx)).setLimit ms)
  | elapse ms =>
    refine ⟨h.recalls, h.version, h.order, ?_⟩
    intro x hx
    obtain ⟨y, hy, rfl⟩ := List.mem_map.1 hx
    exact (h.sessions y hy).elapse ms
  | commit i =>
    rw [Server.step]
    cases hx : s.running? i with
    | none => exact h
    | some x =>
      have hsound := h.sessions x (mem_of_running? hx)
      dsimp only
      rcases s.database.commit_cases x.transaction with
        ⟨why, hcommit⟩ | ⟨hwrites, hcommit⟩ | ⟨hcheck, hwrites, hcommit⟩
      · rw [hcommit]
        exact h.set i hsound.stop
      · rw [hcommit]
        simp only [hwrites, if_true]
        exact h.set i hsound.stop
      · rw [hcommit]
        simp only [hwrites, Bool.false_eq_true, if_false]
        exact (h.commit hsound hcheck hwrites).set i (hsound.append x).stop
  | rollback i =>
    rw [Server.step]
    cases hx : s.running? i with
    | none => exact h
    | some x => exact h.set i (h.sessions x (mem_of_running? hx)).stop

theorem Sound.run (h : s.Sound) (es : List Event) : (s.run es).Sound := by
  induction es generalizing s with
  | nil => exact h
  | cons e es ih => exact ih (h.step e)

/-- The database is serializable. Let any events happen on a new database, in any order. Then it holds what a
plain store holds after the calls of the sessions that committed something, in the order of their commits; each
of these sessions was answered as in that serial run; and every session whatever was answered as by a plain
store that has gone through the commits before the session's start. Only calls that came too late are left out,
and without a time limit there are none. -/
theorem run_serializable (maxHistory : Nat) (es : List Event) :
    let s := (begin maxHistory).run es
    s.database.data = serial s.order ∧
    (∀ i (hi : i < s.order.length),
      (Call.replay s.order[i].calls (serial (s.order.take i))).1 = s.order[i].outcomes) ∧
    ∀ x ∈ s.sessions,
      x.transaction.startVersion ≤ s.order.length ∧
      (Call.replay x.calls (serial (s.order.take x.transaction.startVersion))).1 = x.outcomes ∧
      (x.transaction.limit = none → x.answered = x.log) := by
  intro s
  have h : s.Sound := (sound_begin maxHistory).run es
  exact ⟨h.data, h.order, fun x hx =>
    ⟨(h.sessions x hx).start, (h.sessions x hx).follows.answers, (h.sessions x hx).unlimited⟩⟩

end Server

end Keyspace
