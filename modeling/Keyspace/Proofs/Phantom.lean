import Keyspace.Proofs.Readers
import Keyspace.Proofs.Sessions

/-!
Walks in a transaction while others commit. What a walk has passed has been read, so when it has come to its end the
transaction has read all keys of its ranges, also those that hold nothing. A commit that touches one of them makes
the transaction fail to commit.
-/
namespace Keyspace

open Database (Consecutive)

structure Course where
  scan : Scan
  /-- It has said that there is no further entry. -/
  ended : Bool
  deriving DecidableEq

structure Survey where
  database : Database
  transaction : Transaction
  courses : List Course
  /-- What the commits of others since the transaction began have written. -/
  rivals : List Batch

namespace Survey

/-- The next thing that happens; a walk is named by how many were begun before it. -/
inductive Event where
  /-- Any read or write in the transaction. -/
  | call (c : Call)
  /-- A walk begins, without a start key. -/
  | walk (ranges : RangeSet) (reverse : Bool)
  /-- A walk looks at its next entry. -/
  | peek (i : Nat)
  /-- A walk takes its next entry. -/
  | next (i : Nat)
  | setLimit (ms : Nat)
  | elapse (ms : Nat)
  /-- Another transaction commits. -/
  | commit (t : Transaction)
  | start
  | stop

def begin (database : Database) (t : Transaction) : Survey := ⟨database, t, [], []⟩

def advance (s : Survey) (i : Nat) (move : Scan → StateM Transaction (Scan × Except StoreError (Option Entry))) :
    Survey :=
  match s.courses[i]? with
  | none => s
  | some c =>
    match move c.scan s.transaction with
    | ((scan, .ok none), transaction) => { s with transaction, courses := s.courses.set i ⟨scan, true⟩ }
    | ((scan, _), transaction) => { s with transaction, courses := s.courses.set i { c with scan } }

def step (s : Survey) : Event → Survey
  | .call c => { s with transaction := (c.run s.transaction).2 }
  | .walk ranges reverse => { s with courses := s.courses ++ [⟨.create ranges none reverse, false⟩] }
  | .peek i => s.advance i Scan.peek
  | .next i => s.advance i Scan.next
  | .setLimit ms => { s with transaction := s.transaction.setLimit ms }
  | .elapse ms => { s with transaction := s.transaction.elapse ms }
  | .commit t =>
    match TransactionalDatabase.commit t s.database with
    | (.ok (), database) => { s with database, rivals := s.rivals ++ [t.writes] }
    | (.error _, database) => { s with database }
  | .start => { s with database := (TransactionalDatabase.start s.database).2 }
  | .stop => { s with database := (TransactionalDatabase.stop s.database).2 }

def run (s : Survey) (events : List Event) : Survey := events.foldl step s

end Survey

/-! ## What each step keeps -/

/-- What the walk has passed has been read, and a walk that has ended has passed everything. -/
structure Course.Sound (t : Transaction) (c : Course) : Prop where
  passed : ∀ x, c.scan.ranges.contains x = true → c.scan.faces x = false → t.reads.contains x = true
  ended : c.ended = true → ∀ x, c.scan.faces x = false

theorem Course.Sound.mono {t u : Transaction} {c : Course} (h : c.Sound t)
    (hreads : ∀ k, t.reads.contains k = true → u.reads.contains k = true) : c.Sound u :=
  ⟨fun x hx hpassed => hreads x (h.passed x hx hpassed), h.ended⟩

/-- Moving a walk on in an open transaction reads what the walk passes, and changes nothing else. -/
def Course.Safe (move : Scan → StateM Transaction (Scan × Except StoreError (Option Entry))) : Prop :=
  ∀ {t : Transaction} {c : Course}, c.Sound t → t.expired? = none →
    ∃ (scan : Scan) (found : Option Entry) (u : Transaction), move c.scan t = ((scan, .ok found), u) ∧
      t.Extends u ∧ Course.Sound u ⟨scan, c.ended || found.isNone⟩

/-- A look at the next entry reads what the walk passes up to it. -/
theorem Course.safe_peek : Safe Scan.peek := by
  intro t c h hopen
  cases hfetched : c.scan.fetched with
  | some e =>
    have hfill : c.scan.fill t = ((c.scan, .ok (some e)), t) := by
      rw [Scan.fill, hfetched]
      rfl
    exact ⟨c.scan, some e, t, hfill, .refl t, h.passed, by simpa using h.ended⟩
  | none =>
    have hshows : t.reading.shows t t.view.contents := ⟨rfl, hopen, t.shows_contents⟩
    obtain ⟨u, hfill, hleads⟩ := Scan.fill_apply hfetched (fun _ => t.downward_reading) hshows
    obtain ⟨found, hfound⟩ : ∃ found, (c.scan.remaining t.view.contents).head? = found := ⟨_, rfl⟩
    rw [hfound] at hfill hleads
    have hextends : t.Extends u := by
      rw [hleads.shows.1]
      exact ⟨rfl, rfl, rfl, rfl, hleads.mono⟩
    refine ⟨_, found, u, hfill, hextends, ?_, ?_⟩
    · intro x hx hpassed
      have hx : c.scan.ranges.contains x = true := hleads.ranges ▸ hx
      cases hface : c.scan.faces x with
      | false => exact hleads.mono x (h.passed x hx hface)
      | true => exact hleads.seen x hx hface hpassed
    · intro hended x
      cases found with
      | none => exact Scan.faces_ended c.scan x
      | some e =>
        -- a walk that has ended finds nothing more
        have hfaced := Scan.faces_of_mem_remaining (List.mem_of_head? hfound)
        rw [h.ended (by simpa using hended)] at hfaced
        cases hfaced

theorem Course.safe_next : Safe Scan.next := by
  intro t c h hopen
  obtain ⟨scan, found, u, hfill, hextends, hsound⟩ := safe_peek h hopen
  exact ⟨{ scan with fetched := none }, found, u, StoreM.stateM_bind hfill, hextends, hsound.passed, hsound.ended⟩

namespace Survey

variable {s : Survey}

/-- The walks have been accounted for, and the history of the database tells of each batch of the others that wrote
something, as far back as it goes. -/
structure Sound (s : Survey) : Prop where
  consecutive : Consecutive s.database.history s.database.historyFloor s.database.version
  start : s.transaction.startVersion ≤ s.database.version
  courses : ∀ c ∈ s.courses, c.Sound s.transaction
  rivals : ∀ b ∈ s.rivals, b.isEmpty = false → ∃ v, s.transaction.startVersion < v ∧ v ≤ s.database.version ∧
    ∀ r ∈ s.database.history, r.version = v → r.written = b.written

/-- Whatever only reads and writes in the transaction keeps what is known. -/
theorem Sound.extend (h : s.Sound) {t : Transaction} (hextends : s.transaction.Extends t) :
    Sound { s with transaction := t } where
  consecutive := h.consecutive
  start := hextends.startVersion ▸ h.start
  courses c hc := (h.courses c hc).mono hextends.reads
  rivals b hb hne := by
    obtain ⟨v, hlow, hhigh, hwritten⟩ := h.rivals b hb hne
    exact ⟨v, hextends.startVersion ▸ hlow, hhigh, hwritten⟩

/-- A walk that is moved on safely leaves all walks accounted for. -/
theorem Sound.advance (h : s.Sound) (hopen : s.transaction.expired? = none) (i : Nat)
    {move : Scan → StateM Transaction (Scan × Except StoreError (Option Entry))} (hmove : Course.Safe move) :
    (s.advance i move).Sound := by
  rw [Survey.advance]
  cases hc : s.courses[i]? with
  | none => exact h
  | some c =>
    obtain ⟨scan, found, t, hrun, hextends, hcourse⟩ := hmove (h.courses c (List.mem_of_getElem? hc)) hopen
    have hset : Sound { s with transaction := t, courses := s.courses.set i ⟨scan, c.ended || found.isNone⟩ } := by
      have ht := h.extend hextends
      refine ⟨ht.consecutive, ht.start, ?_, ht.rivals⟩
      intro c' hc'
      rcases List.mem_or_eq_of_mem_set hc' with hc' | rfl
      · exact ht.courses c' hc'
      · exact hcourse
    dsimp only
    rw [hrun]
    cases found with
    | none => simpa using hset
    | some e => simpa using hset

/-- A further commit is remembered, or the history no longer reaches back to it. -/
theorem Sound.record (h : s.Sound) (b : Batch) :
    Sound { s with database := s.database.record b, rivals := s.rivals ++ [b] } := by
  obtain ⟨hconsecutive, hmem⟩ := (h.consecutive.append b.written).evict s.database.maxHistory
  refine ⟨hconsecutive, Nat.le_succ_of_le h.start, h.courses, ?_⟩
  intro b' hb' hne
  rcases List.mem_append.1 hb' with hb' | hb'
  · obtain ⟨v, hlow, hhigh, hwritten⟩ := h.rivals b' hb' hne
    refine ⟨v, hlow, Nat.le_succ_of_le hhigh, ?_⟩
    intro r hr hversion
    rcases List.mem_append.1 (hmem r hr) with hr | hr
    · exact hwritten r hr hversion
    · obtain rfl := List.mem_singleton.1 hr
      exact absurd hversion (by simp only; omega)
  · obtain rfl := List.mem_singleton.1 hb'
    refine ⟨s.database.version + 1, Nat.lt_succ_of_le h.start, Nat.le_refl _, ?_⟩
    intro r hr hversion
    rcases List.mem_append.1 (hmem r hr) with hr | hr
    · have := (h.consecutive.le_version hr).2
      omega
    · obtain rfl := List.mem_singleton.1 hr
      rfl

/-- A commit of somebody else takes nothing back that the walks have read. -/
theorem Sound.commit (h : s.Sound) (t : Transaction) : (s.step (.commit t)).Sound := by
  rw [Survey.step]
  rcases s.database.commit_cases t with ⟨why, hcommit⟩ | ⟨hwrites, hcommit⟩ | ⟨-, -, hcommit⟩
  · rw [hcommit]
    exact h
  · rw [hcommit]
    refine ⟨h.consecutive, h.start, h.courses, ?_⟩
    intro b hb hne
    rcases List.mem_append.1 hb with hb | hb
    · exact h.rivals b hb hne
    · rw [List.mem_singleton.1 hb, hwrites] at hne
      cases hne
  · rw [hcommit]
    exact h.record t.writes

/-- No event upsets the account of the walks while the transaction is open. -/
theorem Sound.step (h : s.Sound) (hopen : s.transaction.expired? = none) (e : Event) : (s.step e).Sound := by
  cases e with
  | call c => exact h.extend (Transaction.run_extends c s.transaction)
  | walk ranges reverse =>
    refine ⟨h.consecutive, h.start, ?_, h.rivals⟩
    intro c hc
    rcases List.mem_append.1 hc with hc | hc
    · exact h.courses c hc
    · obtain rfl := List.mem_singleton.1 hc
      refine ⟨fun x _ hpassed => ?_, nofun⟩
      rw [Scan.faces_create] at hpassed
      cases hpassed
  | peek i => exact h.advance hopen i Course.safe_peek
  | next i => exact h.advance hopen i Course.safe_next
  | setLimit ms => exact ⟨h.consecutive, h.start, fun c hc => (h.courses c hc).mono fun _ hk => hk, h.rivals⟩
  | elapse ms => exact ⟨h.consecutive, h.start, fun c hc => (h.courses c hc).mono fun _ hk => hk, h.rivals⟩
  | commit t => exact h.commit t
  | start => exact ⟨h.consecutive, h.start, h.courses, h.rivals⟩
  | stop => exact ⟨h.consecutive, h.start, h.courses, h.rivals⟩

theorem Sound.run (h : s.Sound) (es : List Event)
    (hopen : ∀ n ≤ es.length, (s.run (es.take n)).transaction.expired? = none) : (s.run es).Sound := by
  induction es generalizing s with
  | nil => exact h
  | cons e es ih =>
    have hnow : s.transaction.expired? = none := hopen 0 (Nat.zero_le _)
    exact ih (h.step hnow e) fun n hn => hopen (n + 1) (Nat.succ_le_succ hn)

/-- A commit of what has read a key that another commit has touched since fails. -/
theorem Sound.commit_eq_error (h : s.Sound) {b : Batch} (hb : b ∈ s.rivals) {k : Key}
    (htouched : b.written.contains k = true) (hread : s.transaction.reads.contains k = true)
    (hwrites : s.transaction.writes.isEmpty = false) :
    ∃ why, TransactionalDatabase.commit s.transaction s.database = (.error why, s.database) := by
  rcases s.database.commit_cases s.transaction with hfailed | ⟨hempty, -⟩ | ⟨hcheck, -, -⟩
  · exact hfailed
  · rw [hwrites] at hempty
    cases hempty
  · have hne : b.isEmpty = false := by
      rw [← Bool.not_eq_true]
      intro hempty
      rw [Batch.contains_written_of_isEmpty hempty k] at htouched
      cases htouched
    obtain ⟨hfloor, hreads⟩ := (Database.checkCommit_eq_ok hcheck).2.2 hwrites
    obtain ⟨v, hlow, hhigh, hwritten⟩ := h.rivals b hb hne
    obtain ⟨r, hr, hversion⟩ := h.consecutive.exists_mem (Nat.lt_of_le_of_lt hfloor hlow) hhigh
    have huntouched := Database.checkReads_eq_ok hreads hr (hversion ▸ hlow) hread
    rw [hwritten r hr hversion, htouched] at huntouched
    cases huntouched

/-- Walks are protected against phantoms. Open a transaction on a database, whatever happened on it before, and let
any events happen in which the transaction does not outlive its limit. When a walk in it, in either direction, has
said that there is no further entry, the transaction has read all keys of its ranges; and once another transaction has
committed a batch that removes, puts or adjusts one of these keys, the transaction cannot commit writes of its own. -/
theorem run_protected (maxHistory : Nat) (before : List Keyspace.Event) (t : Transaction)
    (hopened : TransactionalDatabase.enter ((Server.begin maxHistory).run before).database =
      (.ok t, ((Server.begin maxHistory).run before).database))
    (es : List Event)
    (hopen : ∀ n ≤ es.length,
      ((begin ((Server.begin maxHistory).run before).database t).run (es.take n)).transaction.expired? = none) :
    let s := (begin ((Server.begin maxHistory).run before).database t).run es
    ∀ c ∈ s.courses, c.ended = true →
      (∀ k, c.scan.ranges.contains k = true → s.transaction.reads.contains k = true) ∧
      ∀ b ∈ s.rivals, ∀ k, c.scan.ranges.contains k = true →
        b.removes.contains k = true ∨ (∃ v, b.puts.get? k = some v) ∨ (∃ a, b.adjusts.get? k = some a) →
        s.transaction.writes.isEmpty = false →
        ∃ why, TransactionalDatabase.commit s.transaction s.database = (.error why, s.database) := by
  intro s c hc hended
  have hserver : ((Server.begin maxHistory).run before).Sound := (Server.sound_begin maxHistory).run before
  have hstart : t.startVersion = ((Server.begin maxHistory).run before).database.version := by
    rw [Database.enter_apply] at hopened
    split at hopened
    · cases hopened
      rfl
    · cases hopened
  have hbegin : (begin ((Server.begin maxHistory).run before).database t).Sound :=
    ⟨hserver.recalls.consecutive, Nat.le_of_eq hstart, fun _ h => absurd h List.not_mem_nil,
      fun _ h => absurd h List.not_mem_nil⟩
  have h : s.Sound := hbegin.run es hopen
  have hreads : ∀ k, c.scan.ranges.contains k = true → s.transaction.reads.contains k = true := fun k hk =>
    (h.courses c hc).passed k hk ((h.courses c hc).ended hended k)
  refine ⟨hreads, fun b hb k hk htouched hwrites => ?_⟩
  exact h.commit_eq_error hb (Batch.contains_written.2 htouched) (hreads k hk) hwrites

/-- A walk downwards over two ranges, of which only the upper one holds an entry, goes on past a key that the
transaction itself puts; another transaction then adjusts a key of the lower range that has no value. -/
theorem run_protected_gap :
    let before : List Keyspace.Event := [.enter, .call 0 (.write (.put [5] [1])), .commit 0]
    let database := ((Server.begin 2).run before).database
    let t := Transaction.start 1 database.data
    let rs : RangeSet := (RangeSet.single ⟨[1], .key [3], by decide⟩).add ⟨[4], .top, by decide⟩
    let rival := ((Call.write (.adjust [2] 1)).run t).2
    let es : List Event := [.walk rs true, .peek 0, .next 0, .call (.write (.put [4, 9] [2])), .next 0, .next 0,
      .commit rival, .elapse 5]
    let s := (begin database t).run es
    s.rivals = [rival.writes] ∧ s.transaction.writes.isEmpty = false ∧
      (∀ k, rs.contains k = true → s.transaction.reads.contains k = true) ∧
      ∃ why, TransactionalDatabase.commit s.transaction s.database = (.error why, s.database) := by
  intro before database t rs rival es s
  have hopened : TransactionalDatabase.enter database = (.ok t, database) := rfl
  have hopen : ∀ n ≤ es.length, ((begin database t).run (es.take n)).transaction.expired? = none := by
    decide +kernel
  have hcourses : s.courses = [⟨⟨rs, true, .key [], none⟩, true⟩] := by decide +kernel
  have hrivals : s.rivals = [rival.writes] := by decide +kernel
  have hwrites : s.transaction.writes.isEmpty = false := by decide +kernel
  have hcourse := run_protected 2 before t hopened es hopen ⟨⟨rs, true, .key [], none⟩, true⟩
    (hcourses ▸ List.mem_singleton_self _) rfl
  refine ⟨hrivals, hwrites, hcourse.1, ?_⟩
  exact hcourse.2 rival.writes (hrivals ▸ List.mem_singleton_self _) [2] (by decide +kernel)
    (.inr (.inr ⟨1, by decide +kernel⟩)) hwrites

end Survey

end Keyspace
