import Keyspace.Proofs.CommitDecision
import Keyspace.Proofs.Inquiry
import Keyspace.Proofs.Requests

/-!
Stores that can change and fail at any time. All that a walk needs of a store is that each search either gives the
nearest entry of what the store then contains or fails; a fetch over several ranges then does the same, and it still
ends as the loop that it is. Plain stores, transactions, snapshots and atomic stores are such stores.
-/
namespace Keyspace

namespace Scan

variable {σ α β : Type} {contents : σ → Store} {works : σ → Prop}

/-- What an action comes to on a state: an answer, with the contents of the state kept, or a failure, which only a
state that does not work has. -/
def Answers (contents : σ → Store) (works : σ → Prop) (x : StoreM σ α) (a : α) (s : σ) : Prop :=
  (∃ s', x s = (.ok a, s') ∧ contents s' = contents s ∧ (works s → works s')) ∨
    ¬works s ∧ ∃ why s', x s = (.error why, s')

theorem Answers.pure (a : α) (s : σ) : Answers contents works (pure a) a s := .inl ⟨s, rfl, rfl, id⟩

theorem Answers.bind {x : StoreM σ α} {f : α → StoreM σ β} {a : α} {b : β} {s : σ} (h : Answers contents works x a s)
    (hrest : ∀ s', contents s' = contents s → Answers contents works (f a) b s') :
    Answers contents works (x >>= f) b s := by
  rcases h with ⟨s', hrun, hcontents, hworks⟩ | ⟨hbroken, why, s', hrun⟩
  · rcases hrest s' hcontents with ⟨s'', hrun', hcontents', hworks'⟩ | ⟨hbroken, why, s'', hrun'⟩
    · exact .inl ⟨s'', (StoreM.bind_ok hrun).trans hrun', hcontents'.trans hcontents, fun h => hworks' (hworks h)⟩
    · exact .inr ⟨fun h => hbroken (hworks h), why, s'', (StoreM.bind_ok hrun).trans hrun'⟩
  · exact .inr ⟨hbroken, why, s', StoreM.bind_error hrun⟩

variable [KeyValueReader σ]

/-- Each search on a state gives the nearest entry of its contents, or it fails. -/
structure Faithful (contents : σ → Store) (works : σ → Prop) : Prop where
  firstAtLeast : ∀ k s, Answers contents works (KeyValueReader.firstAtLeast k) ((contents s).firstAtLeast k) s
  lastBelow : ∀ b s, Answers contents works (KeyValueReader.lastBelow b) ((contents s).lastBelow b) s

namespace Faithful

/-- What such a store finds is on the side that it was asked for. -/
theorem ordered (h : Faithful contents works) : Ordered σ where
  firstAtLeast {k e s s'} hrun := by
    rcases h.firstAtLeast k s with ⟨_, hrun', -⟩ | ⟨-, why, _, hrun'⟩
    · have hfirst := (contents s).isFirst_firstAtLeast k
      rw [Except.ok.inj (congrArg Prod.fst (hrun'.symm.trans hrun))] at hfirst
      exact hfirst.2.1
    · cases hrun'.symm.trans hrun
  lastBelow {b e s s'} hrun := by
    rcases h.lastBelow b s with ⟨_, hrun', -⟩ | ⟨-, why, _, hrun'⟩
    · have hlast := (contents s).isLast_lastBelow b
      rw [Except.ok.inj (congrArg Prod.fst (hrun'.symm.trans hrun))] at hlast
      exact hlast.2.1
    · cases hrun'.symm.trans hrun

/-- A search in ascending ranges finds what it finds in the contents. -/
theorem firstIn (h : Faithful contents works) {rs : List KeyRange} {k : Key} {s : σ} {found : Option Entry}
    (hfound : (Scan.firstIn k rs (contents s)).1 = .ok found) :
    Answers contents works (Scan.firstIn k rs) found s := by
  induction rs generalizing k s with
  | nil =>
    obtain rfl := Except.ok.inj hfound
    exact .pure none s
  | cons r rs ih =>
    rw [Scan.firstIn] at hfound ⊢
    split
    · next hbelow =>
      rw [if_pos hbelow] at hfound
      refine (h.firstAtLeast _ s).bind fun s' hs' => ?_
      rw [StoreM.bind_ok (rfl : (KeyValueReader.firstAtLeast _ : StoreM Store _) (contents s) = _)] at hfound
      cases hfirst : (contents s).firstAtLeast (if k < r.low then r.low else k) with
      | none =>
        rw [hfirst] at hfound
        obtain rfl := Except.ok.inj hfound
        exact .pure none s'
      | some e =>
        rw [hfirst] at hfound
        dsimp only at hfound ⊢
        split
        · next hin =>
          rw [if_pos hin] at hfound
          obtain rfl := Except.ok.inj hfound
          exact .pure (some e) s'
        · next hin =>
          rw [if_neg hin, ← hs'] at hfound
          exact ih hfound
    · next hbelow =>
      rw [if_neg hbelow] at hfound
      exact ih hfound

/-- A search in descending ranges finds what it finds in the contents. -/
theorem lastIn (h : Faithful contents works) {rs : List KeyRange} {b : Bound} {s : σ} {found : Option Entry}
    (hfound : (Scan.lastIn b rs (contents s)).1 = .ok found) :
    Answers contents works (Scan.lastIn b rs) found s := by
  induction rs generalizing b s with
  | nil =>
    obtain rfl := Except.ok.inj hfound
    exact .pure none s
  | cons r rs ih =>
    rw [Scan.lastIn] at hfound ⊢
    split
    · next habove =>
      rw [if_pos habove] at hfound
      refine (h.lastBelow _ s).bind fun s' hs' => ?_
      rw [StoreM.bind_ok (rfl : (KeyValueReader.lastBelow _ : StoreM Store _) (contents s) = _)] at hfound
      cases hlast : (contents s).lastBelow (b.min r.high) with
      | none =>
        rw [hlast] at hfound
        obtain rfl := Except.ok.inj hfound
        exact .pure none s'
      | some e =>
        rw [hlast] at hfound
        dsimp only at hfound ⊢
        split
        · next hin =>
          rw [if_pos hin] at hfound
          obtain rfl := Except.ok.inj hfound
          exact .pure (some e) s'
        · next hin =>
          rw [if_neg hin, ← hs'] at hfound
          exact ih hfound
    · next habove =>
      rw [if_neg habove] at hfound
      exact ih hfound

/-- A fetch finds the first entry of the contents that the walk has still to meet, or it fails. -/
theorem find (h : Faithful contents works) (w : Scan) (s : σ) :
    Answers contents works w.find (w.remaining (contents s)).head? s := by
  obtain ⟨m', hrun, -⟩ := find_apply (R := Store.reading) w (fun _ => Store.downward_reading) (rfl : contents s = _)
  rw [Scan.find] at hrun ⊢
  split at hrun
  · next hreverse =>
    rw [if_pos hreverse]
    exact h.lastIn (congrArg Prod.fst hrun)
  · next hforward =>
    rw [if_neg hforward]
    cases hcursor : w.cursor with
    | key k =>
      rw [hcursor] at hrun
      exact h.firstIn (congrArg Prod.fst hrun)
    | top =>
      rw [hcursor] at hrun
      rw [← Except.ok.inj (congrArg Prod.fst hrun)]
      exact .pure none s

/-- Fetching ahead takes a walk past the first entry that it has still to meet; a failure ends it. -/
theorem fill_cases (h : Faithful contents works) {w : Scan} (hw : w.fetched = none) (s : σ) :
    (∃ s', w.fill s = (({ w.onward (w.remaining (contents s)).head? with
        fetched := (w.remaining (contents s)).head? }, .ok (w.remaining (contents s)).head?), s')) ∨
      ¬works s ∧ ∃ why s', w.fill s = ((w.onward none, .error why), s') := by
  rw [fill, hw]
  rcases h.find w s with ⟨s', hrun, -⟩ | ⟨hbroken, why, s', hrun⟩
  · refine .inl ⟨s', (StoreM.stateM_bind hrun).trans ?_⟩
    cases (w.remaining (contents s)).head? with
    | none => simp only [onward, ← hw]; rfl
    | some e => rfl
  · refine .inr ⟨hbroken, why, s', (StoreM.stateM_bind hrun).trans ?_⟩
    simp only [onward, ← hw]
    rfl

end Faithful

end Scan

/-! ## Kinds of stores -/

theorem Store.faithful : Scan.Faithful (id : Store → Store) fun _ => True where
  firstAtLeast _ s := .inl ⟨s, rfl, rfl, id⟩
  lastBelow _ s := .inl ⟨s, rfl, rfl, id⟩

namespace Transaction

/-- A transaction works until it has outlived its limit. -/
theorem faithful : Scan.Faithful (fun t : Transaction => t.view.contents) fun t => t.expired? = none where
  firstAtLeast k t := by
    cases hexpired : t.expired? with
    | none =>
      obtain ⟨r, hrun, -⟩ := firstAtLeast_apply hexpired k
      rw [t.shows_contents.firstAtLeast] at hrun
      exact .inl ⟨_, hrun, rfl, fun _ => hexpired⟩
    | some limit =>
      exact .inr ⟨by simp [hexpired], _, t, StoreM.bind_error (current_apply_of_expired hexpired)⟩
  lastBelow b t := by
    cases hexpired : t.expired? with
    | none =>
      obtain ⟨r, hrun, -⟩ := lastBelow_apply hexpired b
      rw [t.shows_contents.lastBelow] at hrun
      exact .inl ⟨_, hrun, rfl, fun _ => hexpired⟩
    | some limit =>
      exact .inr ⟨by simp [hexpired], _, t, StoreM.bind_error (current_apply_of_expired hexpired)⟩

end Transaction

namespace Snapshot

theorem answers_read {τ α : Type} {contents : τ → Store} {works : τ → Prop} {x : StoreM τ α} {a : α}
    {s : Snapshot τ} (h : Scan.Answers contents works x a s.transaction) :
    Scan.Answers (contents ·.transaction) (works ·.transaction) (read x) a s := by
  rcases h with ⟨t, hrun, hkept⟩ | ⟨hbroken, why, t, hrun⟩
  · exact .inl ⟨⟨t⟩, read_apply hrun, hkept⟩
  · exact .inr ⟨hbroken, why, ⟨t⟩, read_apply hrun⟩

/-- A snapshot works as its transaction does. -/
theorem faithful {τ : Type} [KeyValueStore τ] {contents : τ → Store} {works : τ → Prop}
    (h : Scan.Faithful contents works) :
    Scan.Faithful (fun x : Snapshot τ => contents x.transaction) fun x => works x.transaction where
  firstAtLeast k x := answers_read (h.firstAtLeast k x.transaction)
  lastBelow b x := answers_read (h.lastBelow b x.transaction)

end Snapshot

namespace AtomicStore

variable {s : AtomicStore Database}

/-- A call whose first attempt meets no conflict comes to what this attempt does. -/
theorem call_of_takes {α : Type} {x : StoreM Transaction α} {a : Attempt Transaction α} {db : Database}
    (hstarted : s.started = true) (htakes : Attempt.Takes (StoreM.onFst x) s.db a db) (hfinal : ¬a.Conflicts) :
    call x s = (a.outcome, { s with db }) := by
  have hseries : Attempt.Series (StoreM.onFst x) s.db ([] ++ [a]) db := .cons htakes (.nil db)
  exact inTransaction_of_series hstarted hseries ⟨by simp, Nat.zero_le _, fun h => absurd h hfinal⟩

/-- A call that succeeds without writes leaves a store as it is. -/
theorem call_of_read {α : Type} {x : StoreM Transaction α} {a : α} {u : Transaction} (hstarted : s.started = true)
    (hdb : s.db.started = true) (hrun : x (.start s.db.version s.db.data) = (.ok a, u)) (hopen : u.expired? = none)
    (hwrites : u.writes.isEmpty = true) : call x s = (.ok a, s) := by
  have hentered : TransactionalDatabase.enter s.db = (.ok (.start s.db.version s.db.data), s.db) := by
    rw [Database.enter_apply, if_pos hdb]
  have hended : TransactionalDatabase.commit u s.db = (.ok (), s.db) := by
    rw [Database.commit_apply, Database.checkCommit_of_open hdb hopen, if_pos hwrites]
    simp [hwrites]
  have hacted : StoreM.onFst x (.start s.db.version s.db.data, s.db) = (.ok a, (u, s.db)) := by
    rw [StoreM.onFst_apply, hrun]
  exact call_of_takes hstarted (.committed _ hentered hacted hended) nofun

/-- A call on a store whose database is stopped fails. -/
theorem call_of_database_stopped {α : Type} (x : StoreM Transaction α) (hstarted : s.started = true)
    (hdb : s.db.started = false) : call x s = (.error (.lifecycle .databaseStopped), s) := by
  have hentered : TransactionalDatabase.enter s.db = (.error (.lifecycle .databaseStopped), s.db) := by
    rw [Database.enter_apply, hdb, if_neg Bool.false_ne_true]
  exact call_of_takes hstarted (.refused hentered) nofun

theorem answers_call {x : StoreM Transaction (Option Entry)} {found : Option Entry} {r : KeyRange}
    (hrun : x (.start s.db.version s.db.data) = (.ok found, (Transaction.start s.db.version s.db.data).depend r)) :
    Scan.Answers (fun s : AtomicStore Database => s.db.data) (fun s => s.started = true ∧ s.db.started = true) (call x)
      found s := by
  cases hstarted : s.started with
  | false => exact .inr ⟨by simp [hstarted], _, s, inTransaction_of_stopped hstarted _⟩
  | true =>
    cases hdb : s.db.started with
    | false => exact .inr ⟨by simp [hdb], _, s, call_of_database_stopped x hstarted hdb⟩
    | true => exact .inl ⟨s, call_of_read hstarted hdb hrun rfl rfl, rfl, id⟩

/-- A store around a database works while both are started. -/
theorem faithful : Scan.Faithful (fun s : AtomicStore Database => s.db.data)
    fun s => s.started = true ∧ s.db.started = true where
  firstAtLeast k s := by
    obtain ⟨r, hrun, -⟩ := Transaction.firstAtLeast_apply (t := .start s.db.version s.db.data) rfl k
    rw [(Transaction.shows_start s.db.version s.db.data).firstAtLeast] at hrun
    exact answers_call hrun
  lastBelow b s := by
    obtain ⟨r, hrun, -⟩ := Transaction.lastBelow_apply (t := .start s.db.version s.db.data) rfl b
    rw [(Transaction.shows_start s.db.version s.db.data).lastBelow] at hrun
    exact answers_call hrun

end AtomicStore

end Keyspace
