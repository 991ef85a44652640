import Keyspace.AtomicStore
import Keyspace.Proofs.Transaction
import Keyspace.Proofs.Walk

/-!
What walks go over: plain stores, transactions and snapshots. Each is read as a plain store with the same look-ups,
so that walks over them all yield just the entries that they should. A transaction also keeps account of the keys
that a walk has passed.
-/
namespace Keyspace

/-- A plain store is read as itself; it keeps no account of what is read. -/
def Store.reading : Reading Store where
  shows s m := s = m
  seen _ _ := True
  firstAtLeast := by
    rintro s m rfl k
    exact ⟨s, rfl, rfl, fun _ _ => trivial, fun _ _ _ => trivial⟩

theorem Store.downward_reading : Store.reading.Downward := by
  rintro s m rfl b
  exact ⟨s, rfl, rfl, fun _ _ => trivial, fun _ _ _ => trivial⟩

theorem Store.ordered : Scan.Ordered Store where
  firstAtLeast {k e s s'} h := by
    have hfirst := isFirst_firstAtLeast s k
    rw [Except.ok.inj (congrArg Prod.fst h)] at hfirst
    exact hfirst.2.1
  lastBelow {b e s s'} h := by
    have hlast := isLast_lastBelow s b
    rw [Except.ok.inj (congrArg Prod.fst h)] at hlast
    exact hlast.2.1

namespace Transaction

/-- A search in a transaction finds what it finds in the store that the transaction shows. -/
theorem Shows.firstAtLeast {t : Transaction} {m : Store} (h : t.Shows m) (k : Key) :
    t.view.firstAtLeast k = m.firstAtLeast k :=
  ((t.view.isFirst_firstAtLeast k).congr fun x _ _ => h x).unique (m.isFirst_firstAtLeast k)

theorem Shows.lastBelow {t : Transaction} {m : Store} (h : t.Shows m) (b : Bound) :
    t.view.lastBelow b = m.lastBelow b :=
  ((t.view.isLast_lastBelow b).congr fun x _ _ => h x).unique (m.isLast_lastBelow b)

/-- A transaction is read as the store that it shows; reading changes nothing but what counts as read. -/
def reading (origin : Transaction) : Reading Transaction where
  shows t m := t = { origin with reads := t.reads } ∧ origin.expired? = none ∧ origin.Shows m
  seen t x := t.reads.contains x = true
  firstAtLeast := by
    rintro t m ⟨ht, hopen, hshows⟩ k
    have hview : t.view = origin.view := by rw [ht]
    have hopen' : t.expired? = none := by rw [ht]; exact hopen
    obtain ⟨r, hrun, hr⟩ := firstAtLeast_apply hopen' k
    rw [hview, hshows.firstAtLeast] at hrun hr
    refine ⟨t.depend r, hrun, ⟨?_, hopen, hshows⟩, fun x hx => RangeSet.contains_add.2 (.inl hx),
      fun x hx hle => RangeSet.contains_add.2 (.inr ((hr x).2 ⟨hx, hle⟩))⟩
    rw [Transaction.depend, ht]

theorem downward_reading (origin : Transaction) : origin.reading.Downward := by
  rintro t m ⟨ht, hopen, hshows⟩ b
  have hview : t.view = origin.view := by rw [ht]
  have hopen' : t.expired? = none := by rw [ht]; exact hopen
  obtain ⟨r, hrun, hr⟩ := lastBelow_apply hopen' b
  rw [hview, hshows.lastBelow] at hrun hr
  refine ⟨t.depend r, hrun, ⟨?_, hopen, hshows⟩, fun x hx => RangeSet.contains_add.2 (.inl hx),
    fun x hx hle => RangeSet.contains_add.2 (.inr ((hr x).2 ⟨hx, hle⟩))⟩
  rw [Transaction.depend, ht]

/-- What a transaction finds is on the side that it was asked for. -/
theorem ordered : Scan.Ordered Transaction where
  firstAtLeast {k e t t'} h := by
    cases hexpired : t.expired? with
    | some limit =>
      have hrun : (KeyValueReader.firstAtLeast k : StoreM Transaction _) t = _ :=
        StoreM.bind_error (current_apply_of_expired hexpired)
      rw [hrun] at h
      cases h
    | none =>
      obtain ⟨r, hrun, -⟩ := firstAtLeast_apply hexpired k
      have hfirst := t.view.isFirst_firstAtLeast k
      rw [Except.ok.inj (congrArg Prod.fst (hrun.symm.trans h))] at hfirst
      exact hfirst.2.1
  lastBelow {b e t t'} h := by
    cases hexpired : t.expired? with
    | some limit =>
      have hrun : (KeyValueReader.lastBelow b : StoreM Transaction _) t = _ :=
        StoreM.bind_error (current_apply_of_expired hexpired)
      rw [hrun] at h
      cases h
    | none =>
      obtain ⟨r, hrun, -⟩ := lastBelow_apply hexpired b
      have hlast := t.view.isLast_lastBelow b
      rw [Except.ok.inj (congrArg Prod.fst (hrun.symm.trans h))] at hlast
      exact hlast.2.1

end Transaction

namespace Overlay

def contents (o : Overlay) : Store := o.puts.toList.foldl (fun m e => m.insert e.1 e.2) o.visible

theorem get?_contents (o : Overlay) (k : Key) : o.contents.get? k = o.get? k := by
  rw [contents, SortedMap.get?_foldl_insert o.puts.distinct, get?_eq]
  rfl

end Overlay

/-- Each entry that is put in makes the map larger by one at most. -/
theorem SortedMap.size_foldl_insert_le (es : List Entry) (m : Store) :
    (es.foldl (fun m e => m.insert e.1 e.2) m).size ≤ m.size + es.length := by
  have hentry : ∀ (k : Key) (v : Value) (l : List Entry), (insertEntry k v l).length ≤ l.length + 1 := by
    intro k v l
    induction l with
    | nil => exact Nat.le_refl 1
    | cons x l ih =>
      rw [insertEntry]
      split
      · exact Nat.le_refl _
      · split
        · exact Nat.succ_le_succ ih
        · exact Nat.le_succ _
  induction es generalizing m with
  | nil => exact Nat.le_refl _
  | cons e es ih =>
    have hstep := hentry e.1 e.2 m.toList
    have hrest := ih (m.insert e.1 e.2)
    rw [List.foldl_cons, List.length_cons]
    simp only [size, toList_insert] at hrest ⊢
    omega

theorem Transaction.shows_contents (t : Transaction) : t.Shows t.view.contents := fun k =>
  (t.view.get?_contents k).symm

/-- A transaction shows no more entries than it counts. -/
theorem Transaction.size_le_entryCount {t : Transaction} {m : Store} (h : t.Shows m) :
    m.size ≤ KeyValueReader.entryCount t := by
  have hm : m = t.view.contents := SortedMap.ext_get? fun k => (h k).symm.trans (t.shows_contents k)
  have hvisible : t.view.visible.size ≤ t.view.base.size := List.length_filter_le _ _
  have hsize := SortedMap.size_foldl_insert_le t.view.puts.toList t.view.visible
  rw [hm]
  exact Nat.le_trans hsize (Nat.add_le_add_right hvisible _)

namespace Snapshot

theorem read_apply {τ α : Type} {x : StoreM τ α} {s : Snapshot τ} {r : Except StoreError α} {t : τ}
    (h : x s.transaction = (r, t)) : read x s = (r, ⟨t⟩) := by
  simp only [read, StoreM.onPart, h]

variable {τ : Type} [KeyValueStore τ]

def reading (R : Reading τ) : Reading (Snapshot τ) where
  shows s m := R.shows s.transaction m
  seen s x := R.seen s.transaction x
  firstAtLeast := by
    intro s m h k
    obtain ⟨t, hrun, hshows, hmono, hseen⟩ := R.firstAtLeast h k
    exact ⟨⟨t⟩, read_apply hrun, hshows, hmono, hseen⟩

theorem downward_reading {R : Reading τ} (hdown : R.Downward) : (reading R).Downward := by
  intro s m h b
  obtain ⟨t, hrun, hshows, hmono, hseen⟩ := hdown h b
  exact ⟨⟨t⟩, read_apply hrun, hshows, hmono, hseen⟩

theorem ordered (h : Scan.Ordered τ) : Scan.Ordered (Snapshot τ) where
  firstAtLeast {k e s s'} hrun := by
    have hresult : (KeyValueReader.firstAtLeast k s.transaction).1 = .ok (some e) := congrArg Prod.fst hrun
    exact h.firstAtLeast (Prod.ext hresult rfl)
  lastBelow {b e s s'} hrun := by
    have hresult : (KeyValueReader.lastBelow b s.transaction).1 = .ok (some e) := congrArg Prod.fst hrun
    exact h.lastBelow (Prod.ext hresult rfl)

end Snapshot

/-! ## A transaction that has outlived its limit -/

namespace Transaction

variable {t : Transaction} {limit : Nat}

/-- Beyond its limit a transaction refuses a fetch, unless no range is left to fetch from. -/
theorem firstIn_of_expired (h : t.expired? = some limit) (rs : List KeyRange) (k : Key) :
    (Scan.firstIn k rs t = (.ok none, t) ∧ ∀ x, Covers rs x → ¬k ≤ x) ∨
      Scan.firstIn k rs t = (.error (.retry (.timedOut limit)), t) := by
  induction rs with
  | nil => exact .inl ⟨rfl, fun x hx => absurd hx Covers.nil⟩
  | cons r rs ih =>
    rw [Scan.firstIn]
    split
    · exact .inr (StoreM.bind_error (StoreM.bind_error (current_apply_of_expired h)))
    · next hbelow =>
      refine ih.imp_left (And.imp_right ?_)
      intro hnone x hx hle
      rcases Covers.cons.1 hx with hx | hx
      · have hle : Bound.key k ≤ .key x := hle
        simp only [Key.isBelow, decide_eq_true_eq] at hbelow
        exact hbelow (Std.lt_of_le_of_lt hle (KeyRange.contains_iff.1 hx).2)
      · exact hnone x hx hle

/-- The same holds of a fetch downwards. -/
theorem lastIn_of_expired (h : t.expired? = some limit) (rs : List KeyRange) (b : Bound) :
    (Scan.lastIn b rs t = (.ok none, t) ∧ ∀ x, Covers rs x → ¬Bound.key x < b) ∨
      Scan.lastIn b rs t = (.error (.retry (.timedOut limit)), t) := by
  induction rs with
  | nil => exact .inl ⟨rfl, fun x hx => absurd hx Covers.nil⟩
  | cons r rs ih =>
    rw [Scan.lastIn]
    split
    · exact .inr (StoreM.bind_error (StoreM.bind_error (current_apply_of_expired h)))
    · next habove =>
      refine ih.imp_left (And.imp_right ?_)
      intro hnone x hx hlt
      rcases Covers.cons.1 hx with hx | hx
      · simp only [Key.isBelow, decide_eq_true_eq] at habove
        exact habove (Std.lt_of_le_of_lt (KeyRange.contains_iff.1 hx).1 hlt)
      · exact hnone x hx hlt

/-- A fetch fails unless the walk has no range left to go to. -/
theorem find_of_expired (h : t.expired? = some limit) (w : Scan) :
    (w.find t = (.ok none, t) ∧ ∀ x, w.ranges.contains x = true → w.faces x = false) ∨
      w.find t = (.error (.retry (.timedOut limit)), t) := by
  cases hr : w.reverse with
  | true =>
    rw [Scan.find, if_pos hr]
    refine (lastIn_of_expired h _ w.cursor).imp_left (And.imp_right ?_)
    intro hnone x hx
    have hx : Covers w.ranges.ranges.toList.reverse x := by
      simpa [Covers] using RangeSet.contains_iff.1 hx
    simpa [Scan.faces, hr, Key.isBelow] using hnone x hx
  | false =>
    rw [Scan.find, hr, if_neg Bool.false_ne_true]
    cases hc : w.cursor with
    | top => exact .inl ⟨rfl, fun x _ => by simp [Scan.faces, hr, hc]⟩
    | key k =>
      refine (firstIn_of_expired h _ k).imp_left (And.imp_right ?_)
      intro hnone x hx
      simpa [Scan.faces, hr, hc] using hnone x (RangeSet.contains_iff.1 hx)

/-- A step of a walk that has some key to go to fails. -/
theorem next_of_expired (h : t.expired? = some limit) {w : Scan} (hw : w.fetched = none) : ∃ w',
    (w.next t = ((w', .ok none), t) ∧ ∀ x, w.ranges.contains x = true → w.faces x = false) ∨
      w.next t = ((w', .error (.retry (.timedOut limit))), t) := by
  rcases find_of_expired h w with ⟨hfind, hnone⟩ | hfind
  · have hfill : w.fill t = (({ w with cursor := Scan.ended w.reverse }, .ok none), t) := by
      rw [Scan.fill, hw]
      exact StoreM.stateM_bind hfind
    exact ⟨_, .inl ⟨StoreM.stateM_bind hfill, hnone⟩⟩
  · have hfill : w.fill t =
        (({ w with cursor := Scan.ended w.reverse }, .error (.retry (.timedOut limit))), t) := by
      rw [Scan.fill, hw]
      exact StoreM.stateM_bind hfind
    exact ⟨_, .inr (StoreM.stateM_bind hfill)⟩

/-- The one thing that a walk yields then is that the limit is over. -/
theorem items_of_expired (h : t.expired? = some limit) {w : Scan} (hw : w.fetched = none) :
    ((w.items t).1.2 = [] ∧ ∀ x, w.ranges.contains x = true → w.faces x = false) ∨
      (w.items t).1.2 = [.error (.retry (.timedOut limit))] := by
  obtain ⟨w', ⟨hnext, hnone⟩ | hnext⟩ := next_of_expired h hw
  · have hitems : w.items t = ((w', []), t) := Scan.take_none hnext _
    exact .inl ⟨congrArg (·.1.2) hitems, hnone⟩
  · have hitems : w.items t = ((w', [.error (.retry (.timedOut limit))]), t) := Scan.take_error hnext _
    exact .inr (congrArg (·.1.2) hitems)

end Transaction

/-! ## Every walk -/

namespace Scan

structure Walks {σ : Type} [KeyValueReader σ] (s : σ) (m : Store) : Prop where
  yields : ∀ rs start reverse, Yields (create rs start reverse) s (expected m rs start reverse)
  reversed : ∀ rs, ((create rs none true).items s).1.2 = ((create rs none false).items s).1.2.reverse

theorem Walks.of_reading {σ : Type} [KeyValueReader σ] {R : Reading σ} (hdown : R.Downward) {s : σ} {m : Store}
    (h : R.shows s m) (hcount : m.size ≤ KeyValueReader.entryCount s) : Walks s m := by
  have hyields := yields_expected R hdown h hcount
  refine ⟨hyields, fun rs => ?_⟩
  rw [(hyields rs none true).items, (hyields rs none false).items, expected_reverse, List.map_reverse]

/-- Walks are exact. Over a plain store, and over an open transaction or a snapshot of one that looks up each key as
this store does, a walk yields just the entries with keys in its ranges and on its side of the start key, each once
and in its direction, and then no more; without a start key, the walk downwards is the walk upwards reversed. A
transaction that has outlived its limit yields that failure, unless no store has anything to yield. Each fetch,
whatever the walk and the state, ends within one round more than there are ranges. -/
theorem walks_exact :
    (∀ m : Store, Walks m m) ∧
    (∀ (t : Transaction) (m : Store), t.expired? = none → t.Shows m → Walks t m) ∧
    (∀ (x : Snapshot Transaction) (m : Store), x.transaction.expired? = none → x.transaction.Shows m → Walks x m) ∧
    (∀ (t : Transaction) (limit : Nat), t.expired? = some limit → ∀ rs start reverse,
      ((create rs start reverse).items t).1.2 = [.error (.retry (.timedOut limit))] ∨
        ((create rs start reverse).items t).1.2 = [] ∧ ∀ m, expected m rs start reverse = []) ∧
    ∀ w : Scan,
      (∀ m : Store, w.findWithin (w.ranges.size + 1) m = (some <$> w.find) m) ∧
      (∀ t : Transaction, w.findWithin (w.ranges.size + 1) t = (some <$> w.find) t) ∧
      ∀ x : Snapshot Transaction, w.findWithin (w.ranges.size + 1) x = (some <$> w.find) x := by
  refine ⟨?_, ?_, ?_, ?_, ?_⟩
  · exact fun m => .of_reading Store.downward_reading rfl (Nat.le_refl _)
  · exact fun t m hopen h => .of_reading t.downward_reading ⟨rfl, hopen, h⟩ (Transaction.size_le_entryCount h)
  · exact fun x m hopen h => .of_reading (Snapshot.downward_reading x.transaction.downward_reading)
      ⟨rfl, hopen, h⟩ (Transaction.size_le_entryCount h)
  · intro t limit h rs start reverse
    rcases Transaction.items_of_expired h (fetched_create rs start reverse) with ⟨hitems, hnone⟩ | hitems
    · refine .inr ⟨hitems, fun m => ?_⟩
      rw [← remaining_create, remaining, List.filter_eq_nil_iff]
      intro e _ he
      rw [Bool.and_eq_true] at he
      rw [hnone e.1 he.1] at he
      exact absurd he.2 Bool.false_ne_true
    · exact .inl hitems
  · exact fun w => ⟨findWithin_eq Store.ordered w, findWithin_eq Transaction.ordered w,
      findWithin_eq (Snapshot.ordered Transaction.ordered) w⟩

/-- A transaction has put one key between two ranges and one at the start of the second, and has removed a key of the
first; the snapshot of it is walked in both directions. -/
theorem walks_exact_overlaid :
    let base : Store := ([[1], [1, 0], [2], [5], [255, 255]] : List Key).foldl (·.insert · [7]) .empty
    let calls : List Call := [.write (.put [3] [8]), .write (.remove [1]), .write (.put [4] [9]), .get [2]]
    let t := (Call.replay calls (((Transaction.start 3 base).setLimit 50).elapse 20)).2
    let m := (Call.replay calls base).2
    let rs : RangeSet := (RangeSet.single ⟨[], .key [3], by decide⟩).add ⟨[4], .top, by decide⟩
    t.expired? = none ∧ t.Shows m ∧
      ((create rs (some [1, 0]) false).items (⟨t⟩ : Snapshot Transaction)).1.2 =
        [.ok ([1, 0], [7]), .ok ([2], [7]), .ok ([4], [9]), .ok ([5], [7]), .ok ([255, 255], [7])] ∧
      ((create rs (some [4]) true).items t).1.2 = [.ok ([4], [9]), .ok ([2], [7]), .ok ([1, 0], [7])] := by
  intro base calls t m rs
  have hopen : t.expired? = none := by decide
  have hshows : t.Shows m :=
    (Transaction.replay_shows (t := ((Transaction.start 3 base).setLimit 50).elapse 20) rfl
      (Transaction.shows_start 3 base) calls).2
  obtain ⟨-, htransaction, hsnapshot, -⟩ := walks_exact
  refine ⟨hopen, hshows, ?_, ?_⟩
  · rw [((hsnapshot ⟨t⟩ m hopen hshows).yields rs (some [1, 0]) false).items]
    exact congrArg (List.map Except.ok) (by decide +kernel :
      expected m rs (some [1, 0]) false = [([1, 0], [7]), ([2], [7]), ([4], [9]), ([5], [7]), ([255, 255], [7])])
  · rw [((htransaction t m hopen hshows).yields rs (some [4]) true).items]
    exact congrArg (List.map Except.ok) (by decide +kernel :
      expected m rs (some [4]) true = [([4], [9]), ([2], [7]), ([1, 0], [7])])

end Scan

end Keyspace
