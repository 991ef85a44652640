import Keyspace.Proofs.Readers

/-!
Reads of a snapshot against reads of a plain store. A read is a look-up, a step of a walk or the whole of one. As long
as a snapshot is within its time limit each of them finds just what it finds on the store that the snapshot was taken
of, wherever the walk has got to meanwhile; and none of them changes the view that is read.
-/
namespace Keyspace

/-! ## Walks over two states -/

namespace Scan

variable {σ : Type} [KeyValueReader σ]

/-- Whatever searches keep of a state, in either direction. -/
structure Kept (P : σ → Prop) : Prop where
  firstAtLeast : ∀ {s : σ} (k : Key), P s → P (KeyValueReader.firstAtLeast k s).2
  lastBelow : ∀ {s : σ} (b : Bound), P s → P (KeyValueReader.lastBelow b s).2

section

variable {P : σ → Prop} {s : σ}

/-- A fetch upwards keeps what its searches keep. -/
theorem Kept.firstIn (h : Kept P) (rs : List KeyRange) (k : Key) (hs : P s) : P (Scan.firstIn k rs s).2 := by
  induction rs generalizing k s with
  | nil => exact hs
  | cons r rs ih =>
    rw [Scan.firstIn]
    split
    · have hfirst := h.firstAtLeast (if k < r.low then r.low else k) hs
      rw [StoreM.bind_apply]
      rcases hrun : KeyValueReader.firstAtLeast (if k < r.low then r.low else k) s with ⟨why | none | e, s'⟩
      all_goals rw [hrun] at hfirst
      · exact hfirst
      · exact hfirst
      · dsimp only
        split
        · exact hfirst
        · exact ih e.1 hfirst
    · exact ih k hs

/-- A fetch downwards keeps what its searches keep. -/
theorem Kept.lastIn (h : Kept P) (rs : List KeyRange) (b : Bound) (hs : P s) : P (Scan.lastIn b rs s).2 := by
  induction rs generalizing b s with
  | nil => exact hs
  | cons r rs ih =>
    rw [Scan.lastIn]
    split
    · have hlast := h.lastBelow (b.min r.high) hs
      rw [StoreM.bind_apply]
      rcases hrun : KeyValueReader.lastBelow (b.min r.high) s with ⟨why | none | e, s'⟩
      all_goals rw [hrun] at hlast
      · exact hlast
      · exact hlast
      · dsimp only
        split
        · exact hlast
        · exact ih _ hlast
    · exact ih b hs

theorem Kept.find (h : Kept P) (w : Scan) (hs : P s) : P (w.find s).2 := by
  rw [Scan.find]
  split
  · exact h.lastIn _ _ hs
  · cases w.cursor with
    | key k => exact h.firstIn _ k hs
    | top => exact hs

theorem fill_of_fetched {w : Scan} {e : Entry} (hw : w.fetched = some e) (s : σ) :
    w.fill s = ((w, .ok (some e)), s) := by
  rw [fill, hw]
  rfl

/-- A step of a walk keeps what searches keep. -/
theorem Kept.next (h : Kept P) (w : Scan) (hs : P s) : P (w.next s).2 := by
  have hfill : ∃ out s', w.fill s = (out, s') ∧ P s' := by
    cases hw : w.fetched with
    | some e => exact ⟨_, s, fill_of_fetched hw s, hs⟩
    | none =>
      have hfind := h.find w hs
      rw [fill, hw]
      rcases hrun : w.find s with ⟨why | none | e, s'⟩
      all_goals
        rw [hrun] at hfind
        exact ⟨_, s', StoreM.stateM_bind hrun, hfind⟩
  obtain ⟨⟨w', r⟩, s', hrun, hs'⟩ := hfill
  rw [Scan.next, StoreM.stateM_bind hrun]
  exact hs'

/-- A walk keeps what searches keep, however far it goes. -/
theorem Kept.take (h : Kept P) (n : Nat) (w : Scan) (hs : P s) : P (w.take n s).2 := by
  induction n generalizing w s with
  | zero => exact hs
  | succ n ih =>
    have hnext := h.next w hs
    rcases hrun : w.next s with ⟨⟨w', why | none | e⟩, s'⟩
    all_goals rw [hrun] at hnext
    · rw [take_error hrun]
      exact hnext
    · rw [take_none hrun]
      exact hnext
    · rw [take_some hrun (rfl : w'.take n s' = ((_, _), _))]
      exact ih w' hnext

end

variable {R : Reading σ} {s : σ} {m : Store}

/-- A step of a walk finds on a state what it finds on the store that the state is read as, also where an entry has
been fetched ahead. -/
theorem next_eq_store (hdown : R.Downward) (h : R.shows s m) (w : Scan) :
    ∃ found s', w.next s = (found, s') ∧ w.next m = (found, m) ∧ R.shows s' m := by
  cases hw : w.fetched with
  | some e =>
    exact ⟨_, s, StoreM.stateM_bind (fill_of_fetched hw s), StoreM.stateM_bind (fill_of_fetched hw m), h⟩
  | none =>
    obtain ⟨s', hrun, hleads⟩ := next_apply hw (fun _ => hdown) h
    obtain ⟨m', hstore, hleads'⟩ := next_apply (R := Store.reading) hw (fun _ => Store.downward_reading) rfl
    obtain rfl : m' = m := hleads'.shows
    exact ⟨_, s', hrun, hstore, hleads.shows⟩

/-- A walk over a state finds what it finds over the store that the state is read as. -/
theorem take_eq_store (hdown : R.Downward) (h : R.shows s m) (n : Nat) (w : Scan) :
    (w.take n s).1 = (w.take n m).1 := by
  induction n generalizing w s with
  | zero => rfl
  | succ n ih =>
    obtain ⟨⟨w', r⟩, s', hrun, hstore, hshows⟩ := next_eq_store hdown h w
    rcases r with why | none | e
    · rw [take_error hrun, take_error hstore]
    · rw [take_none hrun, take_none hstore]
    · have hrest := ih hshows w'
      rcases htake : w'.take n s' with ⟨⟨w₁, es₁⟩, s₁⟩
      rcases htake' : w'.take n m with ⟨⟨w₂, es₂⟩, m₂⟩
      rw [htake, htake', Prod.mk.injEq] at hrest
      rw [take_some hrun htake, take_some hstore htake', hrest.1, hrest.2]

end Scan

/-! ## Reads as data -/

inductive Query where
  | get (k : Key)
  | firstAtLeast (k : Key)
  | lastBelow (b : Bound)

def Query.run {σ : Type} [KeyValueReader σ] : Query → StoreM σ Answer
  | get k => Answer.value <$> KeyValueReader.get? k
  | firstAtLeast k => Answer.entry <$> KeyValueReader.firstAtLeast k
  | lastBelow b => Answer.entry <$> KeyValueReader.lastBelow b

/-- A read: a look-up, a step of a walk, or all that a walk still meets. -/
inductive Inquiry where
  | query (q : Query)
  | next (w : Scan)
  | items (w : Scan)

inductive Finding where
  | outcome (o : Outcome)
  | next (w : Scan) (r : Except StoreError (Option Entry))
  | items (w : Scan) (es : List (Except StoreError Entry))

def Inquiry.run {σ : Type} [KeyValueReader σ] : Inquiry → StateM σ Finding
  | query q => fun s => (.outcome (q.run s).1, (q.run s).2)
  | next w => fun s => (.next (w.next s).1.1 (w.next s).1.2, (w.next s).2)
  | items w => fun s => (.items (w.items s).1.1 (w.items s).1.2, (w.items s).2)

/-! ## Reads of a snapshot -/

namespace Transaction

/-- No search changes what the transaction shows. -/
theorem kept_view (view : Overlay) : Scan.Kept fun t : Transaction => t.view = view where
  firstAtLeast {t} k h := by
    cases hexpired : t.expired? with
    | some limit =>
      have hrun : (KeyValueReader.firstAtLeast k : StoreM Transaction _) t = _ :=
        StoreM.bind_error (current_apply_of_expired hexpired)
      rw [hrun]
      exact h
    | none =>
      obtain ⟨r, hrun, -⟩ := firstAtLeast_apply hexpired k
      rw [hrun]
      exact h
  lastBelow {t} b h := by
    cases hexpired : t.expired? with
    | some limit =>
      have hrun : (KeyValueReader.lastBelow b : StoreM Transaction _) t = _ :=
        StoreM.bind_error (current_apply_of_expired hexpired)
      rw [hrun]
      exact h
    | none =>
      obtain ⟨r, hrun, -⟩ := lastBelow_apply hexpired b
      rw [hrun]
      exact h

end Transaction

def Query.toCall : Query → Call
  | get k => .get k
  | firstAtLeast k => .firstAtLeast k
  | lastBelow b => .lastBelow b

theorem Query.run_toCall {σ : Type} [KeyValueStore σ] (q : Query) (s : σ) : q.toCall.run s = q.run s := by
  cases q <;> rfl

/-- Look-ups in a transaction change nothing that it shows. -/
theorem Transaction.view_query (q : Query) (t : Transaction) : (q.run t).2.view = t.view := by
  cases q with
  | firstAtLeast k =>
    rw [Query.run, StoreM.map_apply]
    exact (kept_view t.view).firstAtLeast k rfl
  | lastBelow b =>
    rw [Query.run, StoreM.map_apply]
    exact (kept_view t.view).lastBelow b rfl
  | get k =>
    rw [Query.run, StoreM.map_apply]
    cases hexpired : t.expired? with
    | some limit =>
      have hrun : (KeyValueReader.get? k : StoreM Transaction _) t = _ :=
        StoreM.bind_error (current_apply_of_expired hexpired)
      rw [hrun]
    | none =>
      rw [get?_apply hexpired]
      rfl

namespace Snapshot

theorem kept_view (view : Overlay) : Scan.Kept fun x : Snapshot Transaction => x.transaction.view = view where
  firstAtLeast k h := (Transaction.kept_view view).firstAtLeast k h
  lastBelow b h := (Transaction.kept_view view).lastBelow b h

/-- A snapshot is read through its transaction. -/
theorem query_apply (q : Query) (x : Snapshot Transaction) :
    q.run x = ((q.run x.transaction).1, ⟨(q.run x.transaction).2⟩) := by
  cases q with
  | get k =>
    rw [Query.run, StoreM.map_apply, Query.run, StoreM.map_apply]
    rfl
  | firstAtLeast k =>
    rw [Query.run, StoreM.map_apply, Query.run, StoreM.map_apply]
    rfl
  | lastBelow b =>
    rw [Query.run, StoreM.map_apply, Query.run, StoreM.map_apply]
    rfl

/-- Reads leave the view of a snapshot as it is. -/
theorem view_inquiry (q : Inquiry) (x : Snapshot Transaction) : (q.run x).2.transaction.view = x.transaction.view := by
  have hkept := kept_view x.transaction.view
  cases q with
  | query q =>
    change (q.run x).2.transaction.view = x.transaction.view
    rw [query_apply]
    exact Transaction.view_query q x.transaction
  | next w => exact hkept.next w rfl
  | items w => exact hkept.take _ w rfl

/-- A snapshot within its time limit is read as the store that it was taken of. -/
theorem inquiry_eq_store {x : Snapshot Transaction} {m : Store} (hopen : x.transaction.expired? = none)
    (hview : x.transaction.view = .ofStore m) (q : Inquiry) : (q.run x).1 = (q.run m).1 := by
  have hshows : x.transaction.Shows m := by
    intro k
    rw [hview]
    exact Overlay.get?_ofStore m k
  have hdown : (reading x.transaction.reading).Downward := downward_reading x.transaction.downward_reading
  have hreading : (reading x.transaction.reading).shows x m := ⟨rfl, hopen, hshows⟩
  cases q with
  | query q =>
    have hanswer : (q.run x).1 = (q.run m).1 := by
      rw [query_apply, ← Query.run_toCall, ← Query.run_toCall]
      exact (Transaction.run_shows hopen hshows q.toCall).1
    exact congrArg Finding.outcome hanswer
  | next w =>
    obtain ⟨found, x', hrun, hstore, -⟩ := Scan.next_eq_store hdown hreading w
    have hnext : (w.next x).1 = (w.next m).1 := by rw [hrun, hstore]
    exact congrArg (fun found => Finding.next found.1 found.2) hnext
  | items w =>
    have hcount : KeyValueReader.entryCount x = KeyValueReader.entryCount m := by
      change x.transaction.view.base.size + x.transaction.view.puts.size = m.size
      rw [hview]
      rfl
    have hitems : (w.items x).1 = (w.items m).1 := by
      change (w.take (KeyValueReader.entryCount x + 1) x).1 = (w.take (KeyValueReader.entryCount m + 1) m).1
      rw [hcount]
      exact Scan.take_eq_store hdown hreading _ w
    exact congrArg (fun found => Finding.items found.1 found.2) hitems

end Snapshot

end Keyspace
