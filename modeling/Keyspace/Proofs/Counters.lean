import Keyspace.Proofs.BigEndian
import Keyspace.Proofs.CommitDecision
import Mathlib.Algebra.Ring.Int.Defs

/-!
Counters that many transactions adjust at a time. An adjustment reads nothing, so transactions that only write are never
in each other's way, and it moves the counter from where the commits of others have left it, so none is lost.
-/
namespace Keyspace

/-! ## What calls add to a counter -/

namespace Call

/-- What a call adds to the counter under a key. -/
def amount (k : Key) : Call → Int
  | write (.adjust x amount) => if x = k then amount.toInt else 0
  | _ => 0

/-- If a call is about to change a key, it adjusts it. -/
def OnlyAdjusts (k : Key) (c : Call) : Prop := c.Reaches k → ∃ amount, c = write (.adjust k amount)

variable {m : Store} {k : Key} {n : Int64} {c : Call} {cs : List Call}

theorem amount_of_not_reaches (h : ¬c.Reaches k) : c.amount k = 0 := by
  cases c with
  | write w =>
    cases w with
    | adjust x amount => exact if_neg fun hx => h hx.symm
    | _ => rfl
  | _ => rfl

/-- A call that only adjusts a key moves its counter by what it adds. -/
theorem get?_run_counter (hc : c.OnlyAdjusts k) (hm : m.get? k = some (Counter.encode n)) :
    (c.run m).2.get? k = some (Counter.encode (n + .ofInt (c.amount k))) := by
  by_cases hreach : c.Reaches k
  · obtain ⟨amount, rfl⟩ := hc hreach
    rw [run_adjust_store, Store.get?_adjust, hm]
    simp [Store.adjusted, Call.amount]
  · rw [get?_run_of_not_reaches hreach, hm, amount_of_not_reaches hreach]
    simp

/-- Calls that only adjust a key move its counter by the sum of their amounts. -/
theorem get?_replay_counter (hcs : ∀ c ∈ cs, c.OnlyAdjusts k) (hm : m.get? k = some (Counter.encode n)) :
    (replay cs m).2.get? k = some (Counter.encode (n + .ofInt (cs.map (amount k)).sum)) := by
  induction cs generalizing m n with
  | nil => simpa using hm
  | cons c cs ih =>
    obtain ⟨hc, hcs⟩ := List.forall_mem_cons.1 hcs
    have hrest := ih hcs (get?_run_counter hc hm)
    rw [List.map_cons, List.sum_cons, Int64.ofInt_add, ← Int64.add_assoc]
    exact hrest

end Call

/-! ## Sessions that only write -/

namespace Session

def amount (k : Key) (x : Session) : Int := (x.calls.map (Call.amount k)).sum

/-- The calls of a session are all writes. -/
def OnlyWrites (x : Session) : Prop := ∀ c ∈ x.calls, ∃ w, c = .write w

/-- A session that only writes reads nothing. -/
def Blind (x : Session) : Prop := x.OnlyWrites → ∀ k, x.transaction.reads.contains k = false

variable {x y : Session}

theorem blind_start (version : Nat) (data : Store) : Blind ⟨.start version data, [], true⟩ := fun _ _ => rfl

/-- A session stays blind with another call. -/
theorem Blind.call (h : x.Blind) (c : Call) : (x.call c).Blind := by
  intro hwrites
  rcases x.call_cases c with ⟨-, hanswered⟩ | ⟨hsame, hanswered, -⟩
  · have hcalls : (x.call c).calls = x.calls ++ [c] := by simp [calls, hanswered]
    rw [OnlyWrites, hcalls] at hwrites
    obtain ⟨w, rfl⟩ := hwrites c (by simp)
    have hreads : (x.call (.write w)).transaction.reads = x.transaction.reads :=
      Transaction.reads_run_write w x.transaction
    rw [hreads]
    exact h fun c hc => hwrites c (List.mem_append_left _ hc)
  · rw [OnlyWrites, calls, hanswered] at hwrites
    rw [hsame]
    exact h hwrites

theorem Blind.becomes (h : x.Blind) (hy : x.Becomes y) : y.Blind := by
  rcases hy with ⟨c, rfl⟩ | ⟨-, hreads, hlog⟩
  · exact h.call c
  · have hcalls : y.calls = x.calls := by simp only [calls, answered, hlog]
    intro hwrites
    rw [OnlyWrites, hcalls] at hwrites
    rw [hreads]
    exact h hwrites

end Session

/-! ## Commits -/

namespace Server

variable {s : Server} {maxHistory : Nat} {k : Key} {n : Int64} {es : List Event}

def committedBy (s : Server) : Event → Option Session
  | .commit i => (s.running? i).filter fun x => (TransactionalDatabase.commit x.transaction s.database).1.isOk
  | _ => none

/-- The sessions that commit while some events happen, in the order of their commits. -/
def committed (s : Server) : List Event → List Session
  | [] => []
  | e :: es => (s.committedBy e).toList ++ committed (s.step e) es

theorem committed_append (s : Server) (es fs : List Event) :
    s.committed (es ++ fs) = s.committed es ++ (s.run es).committed fs := by
  induction es generalizing s with
  | nil => rfl
  | cons e es ih =>
    rw [List.cons_append, committed, ih, committed, List.append_assoc]
    rfl

theorem mem_of_committedBy {e : Event} {x : Session} (h : s.committedBy e = some x) : x ∈ s.sessions := by
  cases e with
  | commit i => exact mem_of_running? (Option.filter_eq_some_iff.1 h).1
  | _ => cases h

/-- The data change by the writes of a session that commits, and else they stay. -/
theorem data_step (s : Server) (e : Event) : (s.step e).database.data =
    match s.committedBy e with
    | some x => x.transaction.writes.apply s.database.data
    | none => s.database.data := by
  cases e with
  | start | stop | elapse ms => rfl
  | enter =>
    rw [step, Database.enter_apply]
    cases s.database.started <;> rfl
  | call i c | setLimit i ms | rollback i =>
    rw [step]
    cases s.running? i <;> rfl
  | commit i =>
    rw [step, committedBy]
    cases s.running? i with
    | none => rfl
    | some x =>
      dsimp only
      rcases s.database.commit_cases x.transaction with
        ⟨why, hcommit⟩ | ⟨hwrites, hcommit⟩ | ⟨hcheck, hwrites, hcommit⟩
      · rw [hcommit]
        simp [Option.filter, hcommit, Except.isOk, Except.toBool]
      · rw [hcommit]
        simp [Option.filter, hcommit, Except.isOk, Except.toBool, Batch.apply_of_isEmpty hwrites]
      · rw [hcommit]
        simp [Option.filter, hcommit, Except.isOk, Except.toBool, Database.record]

/-- A counter that is only adjusted has moved by the amounts of the sessions that commit. -/
theorem Sound.get?_run_counter (h : s.Sound) (hk : s.database.data.get? k = some (Counter.encode n))
    (honly : ∀ x ∈ s.committed es, ∀ c ∈ x.calls, c.OnlyAdjusts k) :
    (s.run es).database.data.get? k =
      some (Counter.encode (n + .ofInt ((s.committed es).map (Session.amount k)).sum)) := by
  induction es generalizing s n with
  | nil =>
    have hsame : n + .ofInt ([] : List Int).sum = n := Int64.add_zero n
    rw [committed, List.map_nil, hsame]
    exact hk
  | cons e es ih =>
    have hdata := s.data_step e
    rw [committed] at honly ⊢
    cases hcommitted : s.committedBy e with
    | none =>
      rw [hcommitted] at hdata honly
      exact ih (h.step e) (hdata ▸ hk) honly
    | some x =>
      rw [hcommitted] at hdata honly
      obtain ⟨hx, hes⟩ := List.forall_mem_cons.1 honly
      -- The writes of the session do to the data what its calls do.
      have hmoved : (s.step e).database.data.get? k = some (Counter.encode (n + .ofInt (x.amount k))) := by
        have happly := (h.sessions x (mem_of_committedBy hcommitted)).follows.writes s.database.data
        rw [hdata.trans happly]
        exact Call.get?_replay_counter hx hk
      have hrest := ih (h.step e) hmoved hes
      rw [Int64.add_assoc, ← Int64.ofInt_add] at hrest
      exact hrest

theorem blind_step (h : ∀ x ∈ s.sessions, x.Blind) (e : Event) : ∀ x ∈ (s.step e).sessions, x.Blind := by
  intro y hy
  rcases mem_sessions_step hy with ⟨version, data, rfl⟩ | ⟨x, hx, hbecomes⟩
  · exact Session.blind_start version data
  · exact (h x hx).becomes hbecomes

theorem blind_run (h : ∀ x ∈ s.sessions, x.Blind) (es : List Event) : ∀ x ∈ (s.run es).sessions, x.Blind := by
  induction es generalizing s with
  | nil => exact h
  | cons e es ih => exact ih (blind_step h e)

/-- A session may commit: the database is started, the session is within its limit, and no more commits than are
remembered have been made since it began. -/
structure InTime (s : Server) (maxHistory : Nat) (x : Session) : Prop where
  started : s.database.started = true
  unexpired : x.transaction.expired? = none
  recent : s.database.version - x.transaction.startVersion ≤ maxHistory

/-- A session that has only written commits, whatever others have done. -/
theorem Accounted.commit_of_onlyWrites (h : s.Accounted maxHistory) {x : Session} (hblind : x.Blind)
    (hin : s.InTime maxHistory x) (hwrites : x.OnlyWrites) :
    ∃ db, TransactionalDatabase.commit x.transaction s.database = (.ok (), db) := by
  have hdecided := h.remembers.commitDecided h.sound.recalls.consecutive x.transaction
  cases hempty : x.transaction.writes.isEmpty with
  | true => exact ⟨_, hdecided.idle hin.started hin.unexpired hempty⟩
  | false =>
    have hnot : ¬Database.Overtaken s.commits x.transaction := by
      rintro ⟨version, b, k, -, -, -, hread⟩
      rw [hblind hwrites k] at hread
      cases hread
    obtain ⟨db, hcommit, -⟩ := hdecided.accepted hin.started hin.unexpired hempty hin.recent hnot
    exact ⟨db, hcommit⟩

/-- Adjustments do not conflict and are not lost. Whatever has happened before, and whatever happens from then on, a
session that only writes commits if it is in time. And a key that holds eight bytes, and that the sessions which commit
only adjust, in the end holds the sum of its number and of all their amounts, up to the wrap of signed 64-bit numbers. -/
theorem run_adjusts (maxHistory : Nat) (past es : List Event) (k : Key) (v : Value) :
    let s := (begin maxHistory).run past
    s.database.data.get? k = some v → v.length = 8 →
    (∀ before i after x, es = before ++ .commit i :: after → (s.run before).running? i = some x →
      (s.run before).InTime maxHistory x → x.OnlyWrites →
      (∃ db, TransactionalDatabase.commit x.transaction (s.run before).database = (.ok (), db)) ∧ x ∈ s.committed es) ∧
    ((∀ x ∈ s.committed es, ∀ c ∈ x.calls, c.OnlyAdjusts k) →
      ∃ n, Counter.decode? v = some n ∧ (s.run es).database.data.get? k =
        some (Counter.encode (.ofInt (n.toInt + ((s.committed es).map (Session.amount k)).sum)))) := by
  intro s hk hlength
  constructor
  · rintro before i after x rfl hx hin hwrites
    have haccounted : (s.run before).Accounted maxHistory := ((accounted_begin maxHistory).run past).run before
    have hnone : ∀ x ∈ (begin maxHistory).sessions, x.Blind := fun x hx => absurd hx List.not_mem_nil
    have hblind : ∀ x ∈ (s.run before).sessions, x.Blind := blind_run (blind_run hnone past) before
    obtain ⟨db, hcommit⟩ := haccounted.commit_of_onlyWrites (hblind x (mem_of_running? hx)) hin hwrites
    have hcommitted : (s.run before).committedBy (.commit i) = some x := by
      rw [committedBy, hx, Option.filter_some, hcommit]
      rfl
    refine ⟨⟨db, hcommit⟩, ?_⟩
    rw [committed_append, committed, hcommitted]
    simp
  · intro honly
    obtain ⟨n, hn, rfl⟩ := Counter.exists_encode hlength
    have hrun := ((sound_begin maxHistory).run past).get?_run_counter hk honly
    refine ⟨n, hn, ?_⟩
    rw [Int64.ofInt_add, Int64.ofInt_toInt]
    exact hrun

/-- Two sessions adjust the greatest counter that there is, in turns, and the one that began first commits last; a third
takes back what it has added. -/
theorem run_adjusts_turns :
    let past : List Event := [.enter, .call 0 (.write (.put [1] (Counter.encode Int64.maxValue))), .commit 0]
    let s := (begin 2).run past
    let before : List Event := [.enter, .enter, .enter, .call 1 (.write (.adjust [1] 5)),
      .call 2 (.write (.adjust [1] 7)), .call 3 (.write (.adjust [1] 100)), .call 1 (.write (.adjust [1] (-2))),
      .rollback 3, .commit 2]
    let es := before ++ [.commit 1]
    s.database.data.get? [1] = some (Counter.encode Int64.maxValue) ∧
      (∃ x, (s.run before).running? 1 = some x ∧ (s.run before).InTime 2 x ∧ x.OnlyWrites ∧
        ∃ db, TransactionalDatabase.commit x.transaction (s.run before).database = (.ok (), db)) ∧
      (s.committed es).map (Session.amount [1]) = [7, 3] ∧
      (s.run es).database.data.get? [1] = some (Counter.encode (Int64.minValue + 9)) := by
  intro past s before es
  have hk : s.database.data.get? [1] = some (Counter.encode Int64.maxValue) := by decide +kernel
  have hcalls : (s.committed es).flatMap Session.calls =
      [.write (.adjust [1] 7), .write (.adjust [1] 5), .write (.adjust [1] (-2))] := by decide +kernel
  have hamounts : (s.committed es).map (Session.amount [1]) = [7, 3] := by decide +kernel
  have hrunning : ((s.run before).running? 1).map (fun x => (x.transaction.expired?, x.transaction.startVersion, x.calls)) =
      some (none, 1, [.write (.adjust [1] 5), .write (.adjust [1] (-2))]) := by decide +kernel
  obtain ⟨x, hx, hfacts⟩ := Option.map_eq_some_iff.1 hrunning
  simp only [Prod.mk.injEq] at hfacts
  obtain ⟨hexpired, hstart, hxcalls⟩ := hfacts
  have hin : (s.run before).InTime 2 x := ⟨by decide +kernel, hexpired, by rw [hstart]; decide +kernel⟩
  have hwrites : x.OnlyWrites := by
    rw [Session.OnlyWrites, hxcalls]
    simp
  have honly : ∀ y ∈ s.committed es, ∀ c ∈ y.calls, c.OnlyAdjusts [1] := by
    intro y hy c hc
    have hmem : c ∈ (s.committed es).flatMap Session.calls := List.mem_flatMap.2 ⟨y, hy, hc⟩
    rw [hcalls] at hmem
    simp only [List.mem_cons, List.not_mem_nil, or_false] at hmem
    rcases hmem with rfl | rfl | rfl <;> exact fun _ => ⟨_, rfl⟩
  obtain ⟨hcommits, hsum⟩ := run_adjusts 2 past es [1] _ hk (by decide)
  obtain ⟨n, hn, hend⟩ := hsum honly
  have hnumber : n = Int64.maxValue := by
    rw [Counter.decode?_encode] at hn
    exact (Option.some.inj hn).symm
  refine ⟨hk, ⟨x, hx, hin, hwrites, (hcommits before 1 [] x rfl hx hin hwrites).1⟩, hamounts, ?_⟩
  rw [hend, hamounts, hnumber]
  decide

end Server

end Keyspace
