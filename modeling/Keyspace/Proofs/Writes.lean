import Keyspace.Database
import Keyspace.Proofs.Batch
import Keyspace.Proofs.Call

/-!
Batches against the writes that they record. Writes recorded one by one succeed and fail as they do on a store, and
the batch then makes of any store what the writes one by one make of it, whether it is written by the calls of the
store or straight into a map.
-/
namespace Keyspace

/-! ## Counters, by calls and in their place -/

/-- Adjusts a counter by the other calls of a store. What does not decode as a counter is left alone. -/
def KeyValueStore.adjustByCalls {σ : Type} [KeyValueStore σ] (k : Key) (amount : Int64) : StoreM σ Unit := do
  let some v ← KeyValueReader.get? k | return ()
  let some n ← tryCatch (some <$> KeyValueReader.decodeCounter v) fun _ => pure none | return ()
  KeyValueStore.put k (← KeyValueReader.encodeCounter (n + amount))

namespace Store

/-- The store with an amount added to a counter where it stands. -/
def adjustInPlace (m : Store) (k : Key) (amount : Int64) : Store where
  toList := m.toList.map fun e => (e.1, if e.1 = k then (adjusted amount (some e.2)).getD e.2 else e.2)
  ascending := List.pairwise_map.2 m.ascending

/-- On a plain store the calls come to the adjustment in place. -/
theorem adjustByCalls_apply (k : Key) (amount : Int64) (m : Store) :
    (KeyValueStore.adjustByCalls k amount : StoreM Store Unit) m = (.ok (), m.adjust k amount) := by
  have hget : (KeyValueReader.get? k : StoreM Store (Option Value)) m = (.ok (m.get? k), m) := rfl
  refine (StoreM.bind_ok hget).trans ?_
  rw [adjust]
  cases m.get? k with
  | none => rfl
  | some v =>
    have hdecode : tryCatch (some <$> KeyValueReader.decodeCounter v) (fun _ => pure none) m =
        (.ok (Counter.decode? v), m) := by
      have hcounter : (KeyValueReader.decodeCounter v : StoreM Store Int64) m = (Counter.decode v, m) := rfl
      rw [StoreM.tryCatch_apply, StoreM.map_apply, hcounter, Counter.decode]
      cases Counter.decode? v <;> rfl
    refine (StoreM.bind_ok hdecode).trans ?_
    rw [Option.bind_some]
    cases Counter.decode? v with
    | none => rfl
    | some n => rfl

theorem some_getD_adjusted (amount : Int64) (v : Value) :
    some ((adjusted amount (some v)).getD v) = adjusted amount (some v) := by
  rw [adjusted]
  cases (some v).bind Counter.decode? <;> rfl

/-- A counter that is adjusted where it stands comes to the same as one that is put anew. -/
theorem adjustInPlace_eq (m : Store) (k : Key) (amount : Int64) : m.adjustInPlace k amount = m.adjust k amount := by
  refine SortedMap.ext_get? fun x => ?_
  have hget : (m.adjustInPlace k amount).get? x = (m.toList.find? (·.1 = x)).map fun e =>
      if e.1 = k then (adjusted amount (some e.2)).getD e.2 else e.2 := by
    rw [SortedMap.get?, adjustInPlace, List.find?_map, Option.map_map]
    rfl
  rw [hget, get?_adjust, SortedMap.get?, SortedMap.get?]
  by_cases hx : x = k
  · subst hx
    rw [if_pos rfl]
    cases hentry : m.toList.find? (·.1 = x) with
    | none => rfl
    | some e =>
      have hkey : e.1 = x := by simpa using List.find?_some hentry
      rw [Option.map_some, Option.map_some, if_pos hkey, some_getD_adjusted]
  · rw [if_neg hx]
    cases hentry : m.toList.find? (·.1 = x) with
    | none => rfl
    | some e =>
      have hkey : e.1 = x := by simpa using List.find?_some hentry
      rw [Option.map_some, Option.map_some, if_neg (hkey ▸ hx)]

end Store

/-! ## Batches on a plain store -/

namespace Batch

/-- The contents of a map after a batch, with the counters adjusted in their place. -/
def applyInPlace (b : Batch) (m : Store) : Store :=
  let removed := b.removes.ranges.toList.foldl Store.removeRange m
  let put := b.puts.toList.foldl (fun m e => m.insert e.1 e.2) removed
  b.adjusts.toList.foldl (fun m e => m.adjustInPlace e.1 e.2) put

theorem applyInPlace_eq (b : Batch) (m : Store) : b.applyInPlace m = b.apply m := by
  simp only [applyInPlace, apply, Store.adjustInPlace_eq]

theorem replay_writes_store (ws : List Write) (m : Store) :
    (Call.replay (ws.map .write) m).2 = ws.foldl (fun m w => ((Call.write w).run m).2) m := by
  induction ws generalizing m with
  | nil => rfl
  | cons w ws ih => exact ih _

/-- On a plain store the calls of a batch succeed and give its contents after the batch. -/
theorem applyTo_store (b : Batch) (m : Store) : b.applyTo m = (.ok (), b.apply m) := by
  have hsucceeds : ∀ o ∈ (Call.replay (b.toWrites.map .write) m).1, ∃ a, o = .ok a := fun o ho =>
    Call.exists_of_mem_replay_store (fun _ => fault?_of_mem_calls) ho
  have hremove (n : Store) (r : KeyRange) :
      ((Call.write (.removeRange r.low r.high)).run n).2 = n.removeRange r := by
    rw [Call.run_removeRange_store, KeyRange.between_of_le r.low_le_high]
  rw [applyTo_eq, Call.forM_perform hsucceeds, replay_writes_store, toWrites, List.foldl_append, List.foldl_append,
    List.foldl_map, List.foldl_map, List.foldl_map]
  simp only [hremove, Call.run_put_store, Call.run_adjust_store]
  rfl

end Batch

/-! ## Batches and their writes -/

namespace Write

/-- Records a write in a batch. One that fails leaves the batch as it was. -/
def recordIn (w : Write) : StoreM Batch Unit := fun b =>
  match w.record b with
  | .ok b' => (.ok (), b')
  | .error why => (.error why, b)

/-- Does something for each of some writes, also after it has failed for one. -/
def each {σ : Type} (step : Write → StoreM σ Unit) : List Write → σ → List (Except StoreError Unit) × σ
  | [], s => ([], s)
  | w :: ws, s => ((step w s).1 :: (each step ws (step w s).2).1, (each step ws (step w s).2).2)

/-- One more write recorded is that write performed behind the batch. -/
theorem recordIn_perform (w : Write) (b : Batch) (m : Store) :
    (w.recordIn b).1 = (w.perform (b.apply m)).1 ∧ (w.recordIn b).2.apply m = (w.perform (b.apply m)).2 := by
  cases w with
  | put k v => exact ⟨rfl, b.apply_put m k v⟩
  | remove k => exact ⟨rfl, b.apply_remove m k⟩
  | removeRange low high =>
    rw [perform, Store.removeRange_apply, recordIn, record]
    cases KeyRange.between low high with
    | ok r => exact ⟨rfl, b.apply_removeRange m r⟩
    | error why => exact ⟨rfl, rfl⟩
  | adjust k amount => exact ⟨rfl, b.apply_adjust m k amount⟩

/-- Recording writes and applying the batch comes to what the writes do one by one. -/
theorem each_recordIn (ws : List Write) (b : Batch) (m : Store) :
    (each recordIn ws b).1 = (each perform ws (b.apply m)).1 ∧
      (each recordIn ws b).2.apply m = (each perform ws (b.apply m)).2 := by
  induction ws generalizing b with
  | nil => exact ⟨rfl, rfl⟩
  | cons w ws ih =>
    obtain ⟨hresult, hstore⟩ := recordIn_perform w b m
    obtain ⟨hresults, hend⟩ := ih (w.recordIn b).2
    rw [hstore] at hresults hend
    exact ⟨congrArg₂ List.cons hresult hresults, hend⟩

/-- A range with its bounds out of order is removed neither from a batch nor from a store. -/
theorem removeRange_of_lt {low : Key} {high : Bound} (h : high < .key low) (b : Batch) (m : Store) :
    ∃ why, (removeRange low high).recordIn b = (.error why, b) ∧
      (removeRange low high).perform m = (.error why, m) := by
  have hbetween : ∃ why, KeyRange.between low high = .error why := by
    rw [KeyRange.between, KeyRange.between?, dif_neg (Std.not_le.2 h)]
    exact ⟨_, rfl⟩
  obtain ⟨why, hwhy⟩ := hbetween
  refine ⟨why, ?_, ?_⟩
  · rw [recordIn, record, hwhy]
    rfl
  · rw [perform, Store.removeRange_apply, hwhy]

/-- The removal of an empty range does nothing. -/
theorem removeRange_self (low : Key) (b : Batch) (m : Store) :
    (removeRange low (.key low)).recordIn b = (.ok (), b) ∧
      (removeRange low (.key low)).perform m = (.ok (), m) := by
  have hbetween := KeyRange.between_of_le (Std.le_refl (Bound.key low))
  have hempty : (⟨low, .key low, Std.le_refl _⟩ : KeyRange).isEmpty = true := decide_eq_true rfl
  refine ⟨?_, ?_⟩
  · rw [recordIn, record, hbetween, Except.map, Batch.removeRange, if_pos hempty]
  · rw [perform, Store.removeRange_apply, hbetween]
    refine congrArg (Prod.mk _) (SortedMap.ext_get? fun k => ?_)
    rw [Store.get?_removeRange, KeyRange.isEmpty_iff.1 hempty k]
    rfl

/-- Whatever writes are recorded in a batch, they succeed and fail as they do on a store, and the batch makes of the
store what they make of it: by the calls of the store, on the commit of a database with these contents, and with the
counters adjusted in their place. -/
theorem recorded_eq_performed (ws : List Write) (m : Store) :
    let recorded := each recordIn ws .empty
    let performed := each perform ws m
    recorded.1 = performed.1 ∧
    recorded.2.applyTo m = (.ok (), performed.2) ∧
    recorded.2.applyInPlace m = performed.2 ∧
    (∀ db : Database, (Database.record { db with data := m } recorded.2).data = performed.2) ∧
    (∀ k amount (n : Store), (KeyValueStore.adjustByCalls k amount : StoreM Store Unit) n =
      (adjust k amount).perform n) ∧
    (∀ low high, high < .key low → ∀ (b : Batch) (n : Store), ∃ why,
      (removeRange low high).recordIn b = (.error why, b) ∧ (removeRange low high).perform n = (.error why, n)) ∧
    (∀ low (b : Batch) (n : Store),
      (removeRange low (.key low)).recordIn b = (.ok (), b) ∧
        (removeRange low (.key low)).perform n = (.ok (), n)) := by
  intro recorded performed
  obtain ⟨hresults, hstore⟩ := each_recordIn ws .empty m
  rw [Batch.apply_empty] at hresults hstore
  refine ⟨hresults, ?_, ?_, fun db => hstore, fun k amount n => Store.adjustByCalls_apply k amount n,
    fun low high h b n => removeRange_of_lt h b n, removeRange_self⟩
  · rw [Batch.applyTo_store]
    exact congrArg (Prod.mk _) hstore
  · rw [Batch.applyInPlace_eq]
    exact hstore

end Write

end Keyspace
