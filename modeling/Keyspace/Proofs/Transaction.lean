import Keyspace.Proofs.Batch
import Keyspace.Proofs.Call
import Keyspace.Proofs.Overlay
import Keyspace.Transaction

/-!
Transactions beside plain stores. As long as a transaction is within its time limit, each call gives what a
plain store with the same look-ups gives and leaves the two alike. Its answers depend on the store below only
through the keys of the ranges recorded as read, and its batch does to any store what its calls do.
-/
namespace Keyspace

namespace Transaction

open Call (replay)

variable {t : Transaction}

theorem current_apply (h : t.expired? = none) : current t = (.ok t, t) := by
  change (StoreM.ofExcept t.checkLimit >>= fun _ => pure t) t = _
  rw [StoreM.bind_apply, StoreM.ofExcept_apply, checkLimit, h]
  rfl

theorem current_apply_of_expired {limit : Nat} (h : t.expired? = some limit) :
    current t = (.error (.retry (.timedOut limit)), t) := by
  change (StoreM.ofExcept t.checkLimit >>= fun _ => pure t) t = _
  rw [StoreM.bind_apply, StoreM.ofExcept_apply, checkLimit, h]

/-! ## Single operations -/

theorem get?_apply (h : t.expired? = none) (k : Key) :
    (KeyValueReader.get? k : StoreM Transaction (Option Value)) t =
      (.ok (t.view.get? k), t.depend (.single k)) :=
  StoreM.bind_ok (current_apply h)

/-- Up to where a search upwards has looked that came to some entry or to none. -/
def ceiling : Option Entry → Bound
  | some e => .key e.1.successor
  | none => .top

/-- Down to where a search downwards has looked that came to some entry or to none. -/
def floor : Option Entry → Key
  | some e => e.1
  | none => []

/-- A search upwards depends on the keys from its start up to the entry found. -/
theorem firstAtLeast_apply (h : t.expired? = none) (k : Key) : ∃ r : KeyRange,
    (KeyValueReader.firstAtLeast k : StoreM Transaction (Option Entry)) t =
      (.ok (t.view.firstAtLeast k), t.depend r) ∧
      ∀ x, r.contains x = true ↔ k ≤ x ∧ ∀ e ∈ t.view.firstAtLeast k, x ≤ e.1 := by
  have hfound := t.view.isFirst_firstAtLeast k
  have hcall : ∀ r, KeyRange.between k (ceiling (t.view.firstAtLeast k)) = .ok r →
      (KeyValueReader.firstAtLeast k : StoreM Transaction (Option Entry)) t =
        (.ok (t.view.firstAtLeast k), t.depend r) := fun r hr =>
    (StoreM.bind_ok (current_apply h)).trans (StoreM.bind_ok (congrArg (·, t) hr))
  cases hf : t.view.firstAtLeast k with
  | none =>
    rw [hf] at hcall
    refine ⟨_, hcall _ (KeyRange.between_of_le (by simp [ceiling])), ?_⟩
    intro x
    simp [KeyRange.contains_iff, ceiling]
  | some e =>
    rw [hf] at hcall hfound
    have hle : Bound.key k ≤ ceiling (some e) := Std.le_of_lt (Key.lt_successor_iff.2 hfound.2.1)
    refine ⟨_, hcall _ (KeyRange.between_of_le hle), ?_⟩
    intro x
    simp [KeyRange.contains_iff, ceiling, Key.lt_successor_iff]

/-- A search downwards depends on the keys from the entry found up to its start. -/
theorem lastBelow_apply (h : t.expired? = none) (b : Bound) : ∃ r : KeyRange,
    (KeyValueReader.lastBelow b : StoreM Transaction (Option Entry)) t =
      (.ok (t.view.lastBelow b), t.depend r) ∧
      ∀ x, r.contains x = true ↔ Bound.key x < b ∧ ∀ e ∈ t.view.lastBelow b, e.1 ≤ x := by
  have hfound := t.view.isLast_lastBelow b
  have hcall : ∀ r, KeyRange.between (floor (t.view.lastBelow b)) b = .ok r →
      (KeyValueReader.lastBelow b : StoreM Transaction (Option Entry)) t =
        (.ok (t.view.lastBelow b), t.depend r) := fun r hr =>
    (StoreM.bind_ok (current_apply h)).trans (StoreM.bind_ok (congrArg (·, t) hr))
  cases hf : t.view.lastBelow b with
  | none =>
    rw [hf] at hcall
    have hle : Bound.key [] ≤ b := by
      cases b with
      | key k => exact Key.nil_le k
      | top => simp
    refine ⟨_, hcall _ (KeyRange.between_of_le hle), ?_⟩
    intro x
    simp [KeyRange.contains_iff]
  | some e =>
    rw [hf] at hcall hfound
    refine ⟨_, hcall _ (KeyRange.between_of_le (Std.le_of_lt hfound.2.1)), ?_⟩
    intro x
    simp [KeyRange.contains_iff, and_comm]

theorem put_apply (h : t.expired? = none) (k : Key) (v : Value) :
    (KeyValueStore.put k v : StoreM Transaction Unit) t =
      (.ok (), { t with view := t.view.put k v, writes := t.writes.put k v }) :=
  StoreM.bind_ok (current_apply h)

theorem remove_apply (h : t.expired? = none) (k : Key) :
    (KeyValueStore.remove k : StoreM Transaction Unit) t =
      (.ok (), { t with view := t.view.remove k, writes := t.writes.remove k }) :=
  StoreM.bind_ok (current_apply h)

theorem adjust_apply (h : t.expired? = none) (k : Key) (amount : Int64) :
    (KeyValueStore.adjust k amount : StoreM Transaction Unit) t =
      (.ok (), { t with view := t.view.adjust k amount, writes := t.writes.adjust k amount }) :=
  StoreM.bind_ok (current_apply h)

theorem removeRange_apply (h : t.expired? = none) {low : Key} {high : Bound} {r : KeyRange}
    (hr : KeyRange.between low high = .ok r) :
    (KeyValueStore.removeRange low high : StoreM Transaction Unit) t =
      (.ok (), { t with view := t.view.removeRange r, writes := t.writes.removeRange r }) :=
  (StoreM.bind_ok (congrArg (·, t) hr)).trans (StoreM.bind_ok (current_apply h))

/-! ## Single calls -/

/-- Bounds out of order fail before anything else is looked at. -/
theorem run_of_fault {c : Call} {why : StoreError} (h : c.fault? = some why) (t : Transaction) :
    c.run t = (.error why, t) := by
  cases c with
  | write w =>
    cases w with
    | removeRange low high =>
      have hr : KeyRange.between low high = .error why := by
        unfold Call.fault? at h
        cases hr : KeyRange.between low high <;> simp_all
      have : (KeyValueStore.removeRange low high : StoreM Transaction Unit) t = (.error why, t) :=
        StoreM.bind_error (congrArg (·, t) hr)
      rw [Call.run, StoreM.map_apply, Write.perform, this]
      rfl
    | _ => simp [Call.fault?] at h
  | _ => simp [Call.fault?] at h

/-- A transaction that has outlived its limit does nothing more. -/
theorem run_of_expired {c : Call} {limit : Nat} (h : t.expired? = some limit) (hc : c.fault? = none) :
    c.run t = (.error (.retry (.timedOut limit)), t) := by
  have hcurrent := current_apply_of_expired h
  cases c with
  | get k =>
    have : (KeyValueReader.get? k : StoreM Transaction (Option Value)) t = _ :=
      StoreM.bind_error hcurrent
    rw [Call.run, StoreM.map_apply, this]
    rfl
  | firstAtLeast k =>
    have : (KeyValueReader.firstAtLeast k : StoreM Transaction (Option Entry)) t = _ :=
      StoreM.bind_error hcurrent
    rw [Call.run, StoreM.map_apply, this]
    rfl
  | lastBelow b =>
    have : (KeyValueReader.lastBelow b : StoreM Transaction (Option Entry)) t = _ :=
      StoreM.bind_error hcurrent
    rw [Call.run, StoreM.map_apply, this]
    rfl
  | write w =>
    have : (w.perform : StoreM Transaction Unit) t = (.error (.retry (.timedOut limit)), t) := by
      cases w with
      | put k v => exact StoreM.bind_error hcurrent
      | remove k => exact StoreM.bind_error hcurrent
      | adjust k amount => exact StoreM.bind_error hcurrent
      | removeRange low high =>
        cases hr : KeyRange.between low high with
        | ok r => exact (StoreM.bind_ok (congrArg (·, t) hr)).trans (StoreM.bind_error hcurrent)
        | error why => simp [Call.fault?, hr] at hc
    rw [Call.run, StoreM.map_apply, this]
    rfl

/-- A write reads nothing. -/
theorem reads_run_write (w : Write) (t : Transaction) : ((Call.write w).run t).2.reads = t.reads := by
  cases hfault : (Call.write w).fault? with
  | some why => rw [run_of_fault hfault]
  | none =>
    cases hexpired : t.expired? with
    | some limit => rw [run_of_expired hexpired hfault]
    | none =>
      rw [Call.run, StoreM.map_apply]
      cases w with
      | put k v => rw [Write.perform, put_apply hexpired]
      | remove k => rw [Write.perform, remove_apply hexpired]
      | adjust k amount => rw [Write.perform, adjust_apply hexpired]
      | removeRange low high =>
        cases hr : KeyRange.between low high with
        | ok r => rw [Write.perform, removeRange_apply hexpired hr]
        | error why => simp [Call.fault?, hr] at hfault

/-! ## Beside a plain store -/

/-- The transaction looks up each key as the store does. -/
def Shows (t : Transaction) (m : Store) : Prop := ∀ k, t.view.get? k = m.get? k

theorem shows_start (version : Nat) (base : Store) : (start version base).Shows base :=
  Overlay.get?_ofStore base

/-- All that a call of an open transaction can do. A read records a range of keys, and any store that
looks these keys up as the transaction does gives the same answer; a write changes the view and the batch as
it changes a plain store. -/
inductive Effect (t : Transaction) (c : Call) : Outcome × Transaction → Prop where
  | fault (why : StoreError) (h : c.fault? = some why) : Effect t c (.error why, t)
  | read (answer : Answer) (r : KeyRange) (keeps : ∀ m : Store, (c.run m).2 = m)
      (h : ∀ m : Store, (∀ k, r.contains k = true → t.view.get? k = m.get? k) →
        c.run m = (.ok answer, m)) :
      Effect t c (.ok answer, t.depend r)
  | write (view : Overlay) (writes : Batch) (base : view.base = t.view.base)
      (answer : ∀ m : Store, (c.run m).1 = .ok .written)
      (shows : ∀ m, t.Shows m → ∀ k, view.get? k = (c.run m).2.get? k)
      (apply : ∀ m, writes.apply m = (c.run (t.writes.apply m)).2) :
      Effect t c (.ok .written, { t with view, writes })

theorem base_adjust (o : Overlay) (k : Key) (amount : Int64) : (o.adjust k amount).base = o.base := by
  unfold Overlay.adjust
  split <;> rfl

/-- Each call of an open transaction has one of the effects. -/
theorem run_effect (h : t.expired? = none) (c : Call) : t.Effect c (c.run t) := by
  cases hc : c.fault? with
  | some why =>
    rw [run_of_fault hc]
    exact .fault why hc
  | none =>
    cases c with
    | get k =>
      rw [Call.run, StoreM.map_apply, get?_apply h]
      refine .read _ _ (fun m => rfl) fun m hm => ?_
      rw [Call.run_get_store, hm k (KeyRange.contains_single.2 rfl)]
    | firstAtLeast k =>
      obtain ⟨r, hr, hcontains⟩ := firstAtLeast_apply h k
      rw [Call.run, StoreM.map_apply, hr]
      refine .read _ _ (fun m => rfl) fun m hm => ?_
      have hsame : IsFirst m.get? k (t.view.firstAtLeast k) :=
        (t.view.isFirst_firstAtLeast k).congr fun x hx hle => hm x ((hcontains x).2 ⟨hx, hle⟩)
      rw [Call.run_firstAtLeast_store, hsame.unique (m.isFirst_firstAtLeast k)]
    | lastBelow b =>
      obtain ⟨r, hr, hcontains⟩ := lastBelow_apply h b
      rw [Call.run, StoreM.map_apply, hr]
      refine .read _ _ (fun m => rfl) fun m hm => ?_
      have hsame : IsLast m.get? b (t.view.lastBelow b) :=
        (t.view.isLast_lastBelow b).congr fun x hx hle => hm x ((hcontains x).2 ⟨hx, hle⟩)
      rw [Call.run_lastBelow_store, hsame.unique (m.isLast_lastBelow b)]
    | write w =>
      cases w with
      | put k v =>
        rw [Call.run, StoreM.map_apply, Write.perform, put_apply h]
        refine .write _ _ rfl (fun m => rfl) (fun m hm x => ?_) fun m => Batch.apply_put ..
        rw [Overlay.get?_put, Call.run_put_store, SortedMap.get?_insert, hm x]
      | remove k =>
        rw [Call.run, StoreM.map_apply, Write.perform, remove_apply h]
        refine .write _ _ rfl (fun m => rfl) (fun m hm x => ?_) fun m => Batch.apply_remove ..
        rw [Overlay.get?_remove, Call.run_remove_store, SortedMap.get?_erase, hm x]
      | removeRange low high =>
        cases hr : KeyRange.between low high with
        | error why => simp [Call.fault?, hr] at hc
        | ok r =>
          have hstore (m : Store) : (Call.write (.removeRange low high)).run m =
              (.ok .written, m.removeRange r) := by rw [Call.run_removeRange_store, hr]
          rw [Call.run, StoreM.map_apply, Write.perform, removeRange_apply h hr]
          refine .write _ _ rfl (fun m => by rw [hstore]) (fun m hm x => ?_) fun m => ?_
          · rw [Overlay.get?_removeRange, hstore, Store.get?_removeRange, hm x]
          · rw [hstore, Batch.apply_removeRange]
      | adjust k amount =>
        rw [Call.run, StoreM.map_apply, Write.perform, adjust_apply h]
        refine .write _ _ (base_adjust ..) (fun m => rfl) (fun m hm x => ?_) fun m =>
          Batch.apply_adjust ..
        rw [Overlay.get?_adjust, Call.run_adjust_store, Store.get?_adjust, hm x, hm k]

structure Extends (t u : Transaction) : Prop where
  startVersion : u.startVersion = t.startVersion
  base : u.view.base = t.view.base
  limit : u.limit = t.limit
  age : u.age = t.age
  reads : ∀ k, t.reads.contains k = true → u.reads.contains k = true

theorem Extends.refl (t : Transaction) : t.Extends t := ⟨rfl, rfl, rfl, rfl, fun _ h => h⟩

theorem Extends.trans {u v : Transaction} (h : t.Extends u) (h' : u.Extends v) : t.Extends v :=
  ⟨h'.startVersion.trans h.startVersion, h'.base.trans h.base, h'.limit.trans h.limit, h'.age.trans h.age,
    fun k hk => h'.reads k (h.reads k hk)⟩

theorem Extends.expired? {u : Transaction} (h : t.Extends u) : u.expired? = t.expired? := by
  rw [Transaction.expired?, Transaction.expired?, h.limit, h.age]

/-- Whatever is called, the base, the start and the limits of a transaction stay as they are. -/
theorem run_extends (c : Call) (t : Transaction) : t.Extends (c.run t).2 := by
  cases h : t.expired? with
  | some limit =>
    cases hc : c.fault? with
    | some why =>
      rw [run_of_fault hc]
      exact .refl t
    | none =>
      rw [run_of_expired h hc]
      exact .refl t
  | none =>
    have he := run_effect h c
    generalize c.run t = result at he
    cases he with
    | fault => exact .refl t
    | read => exact ⟨rfl, rfl, rfl, rfl, fun k hk => RangeSet.contains_add.2 (.inl hk)⟩
    | write _ _ hbase => exact ⟨rfl, hbase, rfl, rfl, fun k hk => hk⟩

/-- A call gives what the plain store gives, and the two look alike afterwards. -/
theorem run_shows {m : Store} (h : t.expired? = none) (hm : t.Shows m) (c : Call) :
    (c.run t).1 = (c.run m).1 ∧ (c.run t).2.Shows (c.run m).2 := by
  have he := run_effect h c
  generalize c.run t = result at he
  cases he with
  | fault why hc =>
    rw [Call.run_store_of_fault hc]
    exact ⟨rfl, hm⟩
  | read answer r hkeeps hread =>
    rw [hread m fun k _ => hm k]
    exact ⟨rfl, hm⟩
  | write view writes hbase hanswer hshows => exact ⟨(hanswer m).symm, hshows m hm⟩

/-- What a call adds to the batch is what the call does to a plain store. -/
theorem apply_writes_run (h : t.expired? = none) (c : Call) (m : Store) :
    (c.run t).2.writes.apply m = (c.run (t.writes.apply m)).2 := by
  have he := run_effect h c
  generalize c.run t = result at he
  cases he with
  | fault why hc => rw [Call.run_store_of_fault hc]
  | read answer r hkeeps => exact (hkeeps _).symm
  | write view writes hbase hanswer hshows happly => exact happly m

/-- A call that leaves a key alone in every store adds nothing to the batch that would change it. -/
theorem get?_apply_writes_run (c : Call) {k : Key} (hc : ∀ m : Store, (c.run m).2.get? k = m.get? k)
    (t : Transaction) (m : Store) : ((c.run t).2.writes.apply m).get? k = (t.writes.apply m).get? k := by
  cases h : t.expired? with
  | none => rw [apply_writes_run h, hc]
  | some limit =>
    cases hfault : c.fault? with
    | some why => rw [run_of_fault hfault]
    | none => rw [run_of_expired h hfault]

/-- The answer of a call is the same on every store that agrees on the keys recorded as read. -/
theorem run_answer_congr {m n : Store} (h : t.expired? = none) (hm : t.Shows m) (c : Call)
    (hn : ∀ k, (c.run t).2.reads.contains k = true → m.get? k = n.get? k) :
    (c.run m).1 = (c.run n).1 := by
  have he := run_effect h c
  generalize c.run t = result at he hn
  cases he with
  | fault why hc => rw [Call.run_store_of_fault hc, Call.run_store_of_fault hc]
  | read answer r hkeeps hread =>
    have hsame : ∀ k, r.contains k = true → t.view.get? k = n.get? k := fun k hk =>
      (hm k).trans (hn k (RangeSet.contains_add.2 (.inr hk)))
    rw [hread m fun k _ => hm k, hread n hsame]
  | write view writes hbase hanswer => rw [hanswer m, hanswer n]

/-! ## Runs of calls -/

theorem replay_extends (cs : List Call) (t : Transaction) : t.Extends (replay cs t).2 := by
  induction cs generalizing t with
  | nil => exact .refl t
  | cons c cs ih => exact (run_extends c t).trans (ih _)

theorem replay_shows {m : Store} (h : t.expired? = none) (hm : t.Shows m) (cs : List Call) :
    (replay cs t).1 = (replay cs m).1 ∧ (replay cs t).2.Shows (replay cs m).2 := by
  induction cs generalizing t m with
  | nil => exact ⟨rfl, hm⟩
  | cons c cs ih =>
    obtain ⟨hanswer, hnext⟩ := run_shows h hm c
    obtain ⟨hanswers, hlast⟩ := ih ((run_extends c t).expired?.trans h) hnext
    exact ⟨by rw [replay, replay, hanswer, hanswers], hlast⟩

/-- What calls add to the batch is what they do to a plain store. -/
theorem apply_writes_replay (h : t.expired? = none) (cs : List Call) (m : Store) :
    (replay cs t).2.writes.apply m = (replay cs (t.writes.apply m)).2 := by
  induction cs generalizing t with
  | nil => rfl
  | cons c cs ih => rw [replay, replay, ih ((run_extends c t).expired?.trans h), apply_writes_run h]

/-- An open transaction on some data cannot be told from a plain store with that data, whatever calls are
made. In any overlay the searches behind the ordered look-ups, run as loops, end within one round more than
the store below has entries. -/
theorem replay_eq_store (t : Transaction) (base : Store) (hview : t.view = .ofStore base)
    (hopen : t.expired? = none) (cs : List Call) :
    (replay cs t).1 = (replay cs base).1 ∧
      ∀ o : Overlay,
        (∀ k, (Overlay.answerWithin o.ascend (o.base.size + 1) k).map (Overlay.lesser (o.puts.firstAtLeast k)) =
          some (o.firstAtLeast k)) ∧
        ∀ b, (Overlay.answerWithin o.descend (o.base.size + 1) b).map (Overlay.greater (o.puts.lastBelow b)) =
          some (o.lastBelow b) := by
  have hshows : t.Shows base := fun k => by rw [hview, Overlay.get?_ofStore]
  exact ⟨(replay_shows hopen hshows cs).1, fun o => ⟨o.map_lesser_ascend, o.map_greater_descend⟩⟩

/-- Five keys are stored; a cleared range overlaps a single cleared key, a value is put inside the range, and a
removed counter is adjusted before and after it is put again. -/
theorem replay_eq_store_overlapping :
    let base : Store := ([[97], [98], [99], [100], [101]] : List Key).foldl (·.insert · [7]) .empty
    let t := ((start 3 base).setLimit 50).elapse 20
    t.view = .ofStore base ∧ t.expired? = none ∧
      (replay [.write (.removeRange [98] (.key [101])), .write (.put [99] [8]), .write (.remove [97]),
          .firstAtLeast [], .firstAtLeast [100], .lastBelow (.key [101]), .lastBelow (.key [99]),
          .write (.removeRange [101] (.key [98])), .write (.removeRange [100] .top), .lastBelow .top,
          .write (.adjust [101] 1), .get [101], .write (.put [101] (Counter.encode 4)),
          .write (.adjust [101] (-6)), .get [101]] t).1 =
        [.ok .written, .ok .written, .ok .written,
          .ok (.entry (some ([99], [8]))), .ok (.entry (some ([101], [7]))),
          .ok (.entry (some ([99], [8]))), .ok (.entry none),
          .error (.invertedRange [101] (.key [98])), .ok .written, .ok (.entry (some ([99], [8]))),
          .ok .written, .ok (.value none), .ok .written,
          .ok .written, .ok (.value (some (Counter.encode (-2))))] := by
  intro base t
  have hopen : t.expired? = none := by decide
  refine ⟨rfl, hopen, ?_⟩
  rw [(replay_eq_store t base rfl hopen _).1]
  rfl

structure Follows (t : Transaction) (base : Store) (cs : List Call) (outcomes : List Outcome) : Prop where
  shows : t.Shows (replay cs base).2
  answers : (replay cs base).1 = outcomes
  /-- The batch does to any store what the calls do. -/
  writes : ∀ m, t.writes.apply m = (replay cs m).2
  /-- Any store that agrees on the keys recorded as read gives the same outcomes. -/
  reads : ∀ m : Store, (∀ k, t.reads.contains k = true → m.get? k = base.get? k) →
    (replay cs m).1 = outcomes

theorem follows_start (version : Nat) (base : Store) : (start version base).Follows base [] [] :=
  ⟨shows_start version base, rfl, fun m => Batch.apply_empty m, fun _ _ => rfl⟩

/-- A call goes on with what has been done before. -/
theorem Follows.run {base : Store} {cs : List Call} {outcomes : List Outcome}
    (h : t.Follows base cs outcomes) (hopen : t.expired? = none) (c : Call) :
    (c.run t).2.Follows base (cs ++ [c]) (outcomes ++ [(c.run t).1]) := by
  obtain ⟨hanswer, hshows⟩ := run_shows hopen h.shows c
  refine ⟨?_, ?_, ?_, ?_⟩
  · rw [Call.replay_append]
    exact hshows
  · rw [Call.replay_append, Call.replay_singleton, h.answers, hanswer]
  · intro m
    rw [apply_writes_run hopen, h.writes, Call.replay_append]
    rfl
  · intro m hm
    have hbefore := h.reads m fun k hk => hm k ((run_extends c t).reads k hk)
    have hcall := run_answer_congr hopen h.shows c (n := (replay cs m).2) fun k hk =>
      Call.get?_replay_congr cs (hm k hk).symm
    rw [Call.replay_append, Call.replay_singleton, hbefore, hanswer, hcall]

/-- A call that is at fault fails in the same way on every store. -/
theorem Follows.fault {base : Store} {cs : List Call} {outcomes : List Outcome}
    (h : t.Follows base cs outcomes) {c : Call} {why : StoreError} (hc : c.fault? = some why) :
    t.Follows base (cs ++ [c]) (outcomes ++ [.error why]) := by
  have hreplay (m : Store) :
      replay (cs ++ [c]) m = ((replay cs m).1 ++ [.error why], (replay cs m).2) := by
    rw [Call.replay_append, Call.replay_singleton, Call.run_store_of_fault hc]
  refine ⟨?_, ?_, ?_, ?_⟩
  · rw [hreplay]
    exact h.shows
  · rw [hreplay, h.answers]
  · intro m
    rw [hreplay, h.writes]
  · intro m hm
    rw [hreplay, h.reads m hm]

end Transaction

end Keyspace
