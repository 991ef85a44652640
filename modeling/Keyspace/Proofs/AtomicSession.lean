import Keyspace.Proofs.Inquiry
import Keyspace.Proofs.Requests
import Keyspace.Proofs.Sessions

/-!
Sessions of an atomic store, and the store as a plain one. As long as nobody else commits, the requests of a session
come to what they come to on a plain store, whatever snapshots are read and given up and whatever goes on in other
transactions meanwhile.
-/
namespace Keyspace

/-- How a snapshot is given up. One that is dropped may be so while a panic unwinds. -/
inductive Release where
  | closed
  | dropped (unwinding : Bool)
  deriving DecidableEq

namespace Release

def perform (x : Snapshot Transaction) (store : AtomicStore Database) : Release → AtomicStore Database
  | closed => (AtomicStore.closeSnapshot x store).2
  | dropped unwinding => AtomicStore.dropSnapshot x unwinding store

/-- A leak is a drop that no panic is the reason for. -/
def isLeak : Release → Bool
  | dropped false => true
  | _ => false

theorem perform_apply (x : Snapshot Transaction) (store : AtomicStore Database) (how : Release) :
    how.perform x store = { store with leaked := store.leaked + if how.isLeak then 1 else 0 } := by
  cases how with
  | closed => rfl
  | dropped unwinding => cases unwinding <;> rfl

end Release

/-- Who has a snapshot. One that is lent goes to a use, at whose end it is given up. -/
inductive Custody where
  | held
  | lent
  | released (how : Release)
  deriving DecidableEq

structure Taken where
  snapshot : Snapshot Transaction
  custody : Custody
  data : Store

structure AtomicSession where
  store : AtomicStore Database
  taken : List Taken
  sessions : List Session
  answers : List Outcome
  commits : List (Except StoreError Unit)

namespace Custody

def isOpen : Custody → Bool
  | held | lent => true
  | released _ => false

def isDropped : Custody → Bool
  | released (.dropped _) => true
  | _ => false

def isLeak : Custody → Bool
  | released how => how.isLeak
  | _ => false

theorem isLeak_of_isOpen {c : Custody} (h : c.isOpen = true) : c.isLeak = false := by
  cases c with
  | held => rfl
  | lent => rfl
  | released how => cases h

theorem isLeak_iff {c : Custody} : c.isLeak = true ↔ c = .released (.dropped false) := by
  cases c with
  | held => simp [isLeak]
  | lent => simp [isLeak]
  | released how => rcases how with _ | _ | _ <;> simp [isLeak, Release.isLeak]

end Custody

namespace AtomicSession

/-- The next thing that happens; a snapshot is named by how many were taken before it. -/
inductive Event where
  | start
  | stop
  | configure (config : AtomicConfig)
  | request (r : Request)
  /-- Some work is done in a transaction, whatever else it does to the database. -/
  | transact (action : StoreM (Transaction × Database) Answer)
  | openSnapshot
  | releaseSnapshot (i : Nat) (how : Release)
  | read (i : Nat) (q : Inquiry)
  /-- A use of a new snapshot begins. -/
  | beginUse
  /-- The use of a snapshot is over, which a panic may be the reason for. -/
  | endUse (i : Nat) (panicked : Bool)
  /-- Something happens on the database itself. -/
  | outside (e : Keyspace.Event)

def begin (database : Database) (config : AtomicConfig) : AtomicSession :=
  ⟨AtomicStore.around database config, [], [], [], []⟩

/-- The snapshot of a number, as long as it is in some custody. -/
def find? (s : AtomicSession) (i : Nat) (p : Custody → Bool) : Option Taken := s.taken[i]?.filter (p ·.custody)

def take (s : AtomicSession) (custody : Custody) : AtomicSession :=
  match AtomicStore.openSnapshot s.store with
  | (.ok snapshot, store) => { s with store, taken := s.taken ++ [⟨snapshot, custody, store.db.data⟩] }
  | (.error _, store) => { s with store }

/-- Gives up a snapshot that is in some custody. -/
def release (s : AtomicSession) (i : Nat) (custody : Custody) (how : Release) : AtomicSession :=
  match s.find? i (· = custody) with
  | some x =>
    { s with store := how.perform x.snapshot s.store, taken := s.taken.set i { x with custody := .released how } }
  | none => s

/-- Time passes for a snapshot as for any transaction. -/
def age (e : Keyspace.Event) (x : Taken) : Taken :=
  match e with
  | .elapse ms => { x with snapshot := ⟨x.snapshot.transaction.elapse ms⟩ }
  | _ => x

/-- How the commit of a running session comes out, if an event is one. -/
def commitResult (db : Database) (sessions : List Session) : Keyspace.Event → List (Except StoreError Unit)
  | .commit i =>
    match Server.running? ⟨db, sessions, []⟩ i with
    | some x => [(TransactionalDatabase.commit x.transaction db).1]
    | none => []
  | _ => []

/-- Takes the step that an event asks for. One that names no snapshot in the right custody and no running transaction
does nothing. -/
def step (s : AtomicSession) : Event → AtomicSession
  | .start => { s with store := (AtomicStore.start s.store).2 }
  | .stop => { s with store := (AtomicStore.stop s.store).2 }
  | .configure config => { s with store := (AtomicStore.setConfig config s.store).2 }
  | .request r =>
    let (outcome, store) := r.perform s.store
    { s with store, answers := s.answers ++ [outcome] }
  | .transact action =>
    let (outcome, store) := AtomicStore.inTransaction action s.store
    { s with store, answers := s.answers ++ [outcome] }
  | .openSnapshot => s.take .held
  | .releaseSnapshot i how => s.release i .held how
  | .read i q =>
    match s.find? i Custody.isOpen with
    | some x => { s with taken := s.taken.set i { x with snapshot := (q.run x.snapshot).2 } }
    | none => s
  | .beginUse => s.take .lent
  | .endUse i panicked => s.release i .lent (if panicked then .dropped true else .closed)
  | .outside e =>
    let server := Server.step ⟨s.store.db, s.sessions, []⟩ e
    { s with
      store := { s.store with db := server.database }, taken := s.taken.map (age e), sessions := server.sessions,
      commits := s.commits ++ commitResult s.store.db s.sessions e }

def run (s : AtomicSession) (es : List Event) : AtomicSession := es.foldl step s

/-! ## Single operations -/

/-- The opening of a snapshot changes nothing. It fails, or gives a transaction on the data as they are. -/
theorem openSnapshot_cases (store : AtomicStore Database) :
    (∃ why, (AtomicStore.openSnapshot : StoreM (AtomicStore Database) (Snapshot Transaction)) store =
      (.error why, store)) ∨
    (AtomicStore.openSnapshot : StoreM (AtomicStore Database) (Snapshot Transaction)) store =
      (.ok ⟨(Transaction.start store.db.version store.db.data).setLimit store.config.snapshotLimit⟩, store) := by
  have hentered : (AtomicStore.onDatabase TransactionalDatabase.enter : StoreM (AtomicStore Database) Transaction) store =
      (if store.db.started then .ok (.start store.db.version store.db.data)
        else .error (.lifecycle .databaseStopped), store) := by
    rw [AtomicStore.onDatabase, StoreM.onPart, Database.enter_apply]
    cases store.db.started <;> rfl
  rcases Bool.eq_false_or_eq_true store.started with hstarted | hstopped
  · rw [AtomicStore.openSnapshot, StoreM.bind_ok (AtomicStore.checkStarted_apply hstarted)]
    rcases Bool.eq_false_or_eq_true store.db.started with hdatabase | hdatabase
    · rw [hdatabase, if_pos rfl] at hentered
      exact .inr (StoreM.bind_ok hentered)
    · rw [hdatabase, if_neg Bool.false_ne_true] at hentered
      exact .inl ⟨_, StoreM.bind_error hentered⟩
  · exact .inl ⟨_, StoreM.bind_error (AtomicStore.checkStarted_of_stopped hstopped)⟩

/-- Only a stopped store changes its configuration. -/
theorem setConfig_apply (config : AtomicConfig) (store : AtomicStore Database) :
    AtomicStore.setConfig config store =
      if store.started then (.error (.lifecycle .configWhileRunning), store) else (.ok (), { store with config }) := by
  refine (StoreM.bind_ok (StoreM.get_apply store)).trans ?_
  by_cases hstarted : store.started = true
  · rw [if_pos hstarted, if_pos hstarted]
    rfl
  · rw [if_neg hstarted, if_neg hstarted]
    rfl

/-- Taking a snapshot adds one that shows the data as they are, or does nothing. -/
theorem take_cases (s : AtomicSession) (custody : Custody) :
    s.take custody = s ∨ ∃ x : Taken, x.custody = custody ∧ x.data = s.store.db.data ∧
      x.snapshot.transaction.view = .ofStore x.data ∧ s.take custody = { s with taken := s.taken ++ [x] } := by
  rw [take]
  rcases openSnapshot_cases s.store with ⟨why, hrefused⟩ | hopened
  · rw [hrefused]
    exact .inl rfl
  · rw [hopened]
    exact .inr ⟨_, rfl, rfl, rfl, rfl⟩

theorem find?_eq_some_iff {s : AtomicSession} {i : Nat} {p : Custody → Bool} {x : Taken} :
    s.find? i p = some x ↔ s.taken[i]? = some x ∧ p x.custody = true := Option.filter_eq_some_iff

/-- Giving up a snapshot changes who has it and the count of the leaks, or does nothing. -/
theorem release_cases (s : AtomicSession) (i : Nat) (custody : Custody) (how : Release) :
    s.release i custody how = s ∨ ∃ x, s.taken[i]? = some x ∧ x.custody = custody ∧
      s.release i custody how =
        { s with
          store := { s.store with leaked := s.store.leaked + if how.isLeak then 1 else 0 },
          taken := s.taken.set i { x with custody := .released how } } := by
  rw [release]
  cases hx : s.find? i (· = custody) with
  | none => exact .inl rfl
  | some x =>
    obtain ⟨hget, hcustody⟩ := find?_eq_some_iff.1 hx
    refine .inr ⟨x, hget, of_decide_eq_true hcustody, ?_⟩
    dsimp only
    rw [Release.perform_apply]

/-! ## What the steps keep where nobody else commits -/

/-- Neither the store nor its database is stopped, and no transaction is committed but those of the requests. -/
def Event.Quiet : Event → Prop
  | .stop | .transact _ | .outside .stop | .outside (.commit _) => False
  | _ => True

def requests (es : List Event) : List Request :=
  es.filterMap fun
    | .request r => some r
    | _ => none

structure Sound (s : AtomicSession) : Prop where
  started : s.store.started = true
  ready : s.store.db.Ready

variable {s : AtomicSession}

theorem sound_start {database : Database} (config : AtomicConfig)
    (h : Database.Consecutive database.history database.historyFloor database.version) :
    ((begin database config).step .start).Sound := ⟨rfl, rfl, h⟩

theorem data_start (database : Database) (config : AtomicConfig) :
    ((begin database config).step .start).store.db.data = database.data := rfl

theorem answers_start (database : Database) (config : AtomicConfig) :
    ((begin database config).step .start).answers = [] := rfl

/-- Whatever quietly happens on a database, the database stays as it is. -/
theorem step_outside_database {server : Server} {e : Keyspace.Event} (h : Event.Quiet (.outside e))
    (hready : server.database.Ready) : (server.step e).database = server.database := by
  cases e with
  | start => exact hready.start
  | stop => exact absurd h id
  | enter =>
    rw [Server.step, Database.enter_apply, hready.started]
    rfl
  | call i c =>
    rw [Server.step]
    cases server.running? i <;> rfl
  | setLimit i ms =>
    rw [Server.step]
    cases server.running? i <;> rfl
  | elapse ms => rfl
  | commit i => exact absurd h id
  | rollback i =>
    rw [Server.step]
    cases server.running? i <;> rfl

/-- From one state to another the requests of a list have been answered as by a plain store, and the data have become
what they make of them. -/
structure Serves (s : AtomicSession) (rs : List Request) (s' : AtomicSession) : Prop where
  sound : s'.Sound
  answers : s'.answers = s.answers ++ (Request.replay rs s.store.db.data).1
  data : s'.store.db.data = (Request.replay rs s.store.db.data).2

theorem Serves.trans {s' s'' : AtomicSession} {rs qs : List Request} (h : s.Serves rs s') (h' : s'.Serves qs s'') :
    s.Serves (rs ++ qs) s'' := by
  refine ⟨h'.sound, ?_, ?_⟩
  · rw [h'.answers, h.answers, h.data, Request.replay_append, List.append_assoc]
  · rw [h'.data, h.data, Request.replay_append]

/-- What leaves the database and the answers alone serves no request. -/
theorem Sound.idle {s' : AtomicSession} (h : s.Sound) (hstarted : s'.store.started = true)
    (hdb : s'.store.db = s.store.db) (hanswers : s'.answers = s.answers) : s.Serves [] s' :=
  ⟨⟨hstarted, hdb ▸ h.ready⟩, by rw [hanswers]; exact (List.append_nil _).symm, by rw [hdb]; rfl⟩

theorem Sound.take (h : s.Sound) (custody : Custody) : s.Serves [] (s.take custody) := by
  rcases s.take_cases custody with hsame | ⟨x, -, -, -, htaken⟩
  · rw [hsame]
    exact h.idle h.started rfl rfl
  · rw [htaken]
    exact h.idle h.started rfl rfl

theorem Sound.release (h : s.Sound) (i : Nat) (custody : Custody) (how : Release) :
    s.Serves [] (s.release i custody how) := by
  rcases s.release_cases i custody how with hsame | ⟨x, -, -, hreleased⟩
  · rw [hsame]
    exact h.idle h.started rfl rfl
  · rw [hreleased]
    exact h.idle h.started rfl rfl

/-- A quiet event serves its request, if it is one. -/
theorem Sound.step (h : s.Sound) {e : Event} (hquiet : e.Quiet) : s.Serves (requests [e]) (s.step e) := by
  cases e with
  | start => exact h.idle rfl h.ready.start rfl
  | stop => exact absurd hquiet id
  | configure config =>
    rw [AtomicSession.step, setConfig_apply, if_pos h.started]
    exact h.idle h.started rfl rfl
  | request r =>
    obtain ⟨db, journal, hperform, -, -, hdata, hready⟩ := AtomicStore.perform_of_ready h.started h.ready r
    rw [AtomicSession.step, hperform]
    exact ⟨⟨h.started, hready⟩, rfl, hdata⟩
  | transact action => exact absurd hquiet id
  | openSnapshot => exact h.take .held
  | releaseSnapshot i how => exact h.release i .held how
  | read i q =>
    rw [AtomicSession.step]
    cases s.find? i Custody.isOpen <;> exact h.idle h.started rfl rfl
  | beginUse => exact h.take .lent
  | endUse i panicked => exact h.release i .lent _
  | outside e => exact h.idle h.started (step_outside_database hquiet h.ready) rfl

/-- A quiet run serves just its requests. -/
theorem Sound.run (h : s.Sound) {es : List Event} (hquiet : ∀ e ∈ es, e.Quiet) : s.Serves (requests es) (s.run es) := by
  induction es generalizing s with
  | nil => exact h.idle h.started rfl rfl
  | cons e es ih =>
    obtain ⟨he, hes⟩ := List.forall_mem_cons.1 hquiet
    have hstep := h.step he
    have hrequests : requests (e :: es) = requests [e] ++ requests es := List.filterMap_append (l := [e])
    rw [hrequests]
    exact hstep.trans (ih hstep.sound hes)

/-- No plain store asks for a request to be made again. -/
theorem not_retry_of_mem_replay {rs : List Request} {m : Store} {outcome : Outcome}
    (h : outcome ∈ (Request.replay rs m).1) (why : Conflict) : outcome ≠ .error (.retry why) := by
  induction rs generalizing m with
  | nil => exact absurd h List.not_mem_nil
  | cons r rs ih =>
    rcases List.mem_cons.1 h with rfl | h
    · exact fun hretry => nomatch (Request.run_store_error hretry).1
    · exact ih h

/-- The atomic store cannot be told from a plain one. Take any database, whatever has happened on it, start an atomic
store around it, with any number of retries, and let any events happen then, such that nothing is stopped and nobody
else commits. Then all requests are answered as by a plain store with the data that the database had at first, the
data become what they become there, and no request fails with a conflict. Whatever is requested next takes just one
transaction. -/
theorem run_refines_store (maxHistory : Nat) (before : List Keyspace.Event) (config : AtomicConfig) (es : List Event)
    (hquiet : ∀ e ∈ es, e.Quiet) :
    let database := ((Server.begin maxHistory).run before).database
    let s := (begin database config).run (.start :: es)
    s.answers = (Request.replay (requests es) database.data).1 ∧
    s.store.db.data = (Request.replay (requests es) database.data).2 ∧
    (∀ outcome ∈ s.answers, ∀ why, outcome ≠ .error (.retry why)) ∧
    ∀ r : Request, ∃ (outcome : Outcome) (db : Database) (journal : List (Deed Transaction Answer)),
      r.perform s.store = (outcome, { s.store with db }) ∧
      r.perform (s.store.journaled []) = (outcome, { s.store with db }.journaled journal) ∧
      Deed.OneTransaction journal := by
  intro database s
  have hrecalls := ((Server.sound_begin maxHistory).run before).recalls
  have h : ((begin database config).step .start).Serves (requests es) s :=
    (sound_start config hrecalls.consecutive).run hquiet
  obtain ⟨hsound, hanswers, hdata⟩ := h
  rw [data_start, answers_start, List.nil_append] at hanswers
  rw [data_start] at hdata
  refine ⟨hanswers, hdata, ?_, fun r => ?_⟩
  · rw [hanswers]
    exact fun outcome => not_retry_of_mem_replay
  · obtain ⟨db, journal, hperform, hjournal, hone, -, -⟩ :=
      AtomicStore.perform_of_ready hsound.started hsound.ready r
    exact ⟨_, db, journal, hperform, hjournal, hone⟩

/-- Nothing is remembered of commits and nothing is tried again. A transaction reads a key that the store then writes,
a snapshot is held over the writes and dropped, and one request has its bounds out of order. -/
theorem run_refines_store_beside_others :
    let before : List Keyspace.Event := [.enter, .call 0 (.write (.put [1] (Counter.encode 4))),
      .call 0 (.write (.put [2] [7])), .commit 0, .stop]
    let es : List Event := [.outside .enter, .outside (.call 0 (.get [1])), .outside (.call 0 (.write (.put [1] [5]))),
      .openSnapshot, .request (.call (.write (.adjust [1] 3))), .read 0 (.query (.get [1])),
      .request (.mutate ((((Batch.empty.put [3] [8]).removeRange ⟨[2], .top, by decide⟩).put [4] [9]).adjust [1] 1) true),
      .outside (.elapse 10), .releaseSnapshot 0 (.dropped false),
      .request (.call (.write (.removeRange [5] (.key [2])))), .request (.call (.get [1])), .outside (.rollback 0),
      .request (.call (.lastBelow .top))]
    let s := (begin ((Server.begin 0).run before).database ⟨0, 5⟩).run (.start :: es)
    (∀ e ∈ es, e.Quiet) ∧
      s.answers.map Except.toOption =
        [some .written, some .written, none, some (.value (some (Counter.encode 8))), some (.entry (some ([4], [9])))] ∧
      s.store.db.data.toList = [([1], Counter.encode 8), ([4], [9])] ∧
      ∃ (outcome : Outcome) (db : Database) (journal : List (Deed Transaction Answer)),
        (Request.mutate (Batch.empty.put [6] [6]) false).perform (s.store.journaled []) =
          (outcome, { s.store with db }.journaled journal) ∧ Deed.OneTransaction journal := by
  intro before es s
  have hquiet : ∀ e ∈ es, e.Quiet := by
    simp only [es, List.forall_mem_cons, Event.Quiet, true_and]
    exact fun e he => absurd he List.not_mem_nil
  have hrun : (begin ((Server.begin 0).run before).database ⟨0, 5⟩).run (.start :: es) = s := rfl
  have h := run_refines_store 0 before ⟨0, 5⟩ es hquiet
  dsimp only at h
  rw [hrun] at h
  clear_value s
  obtain ⟨hanswers, hdata, -, hnext⟩ := h
  obtain ⟨outcome, db, journal, -, hjournal, hone⟩ := hnext (.mutate (Batch.empty.put [6] [6]) false)
  refine ⟨hquiet, ?_, ?_, outcome, db, journal, hjournal, hone⟩
  · rw [hanswers]
    decide +kernel
  · rw [hdata]
    decide +kernel

end AtomicSession

end Keyspace
