import Keyspace.Batch
import Keyspace.Proofs.KeyRange
import Keyspace.Proofs.Nearest
import Keyspace.Proofs.StoreM

/-!
Calls on ordered stores as data, and the plain store as the measure of what they should give. A run of calls
on a plain store changes each key on its own, so that keys that agree in two stores go on to agree.
-/
namespace Keyspace

theorem KeyRange.between_of_le {low : Key} {high : Bound} (h : Bound.key low ≤ high) :
    between low high = .ok ⟨low, high, h⟩ := by
  simp [between, between?, h]

theorem Store.removeRange_apply (low : Key) (high : Bound) (m : Store) :
    (KeyValueStore.removeRange low high : StoreM Store Unit) m =
      match KeyRange.between low high with
      | .ok r => (.ok (), m.removeRange r)
      | .error why => (.error why, m) := by
  change (StoreM.ofExcept (KeyRange.between low high) >>= fun r => modify (removeRange · r)) m = _
  rw [StoreM.bind_apply, StoreM.ofExcept_apply]
  cases KeyRange.between low high <;> rfl

inductive Call where
  | get (k : Key)
  | firstAtLeast (k : Key)
  | lastBelow (b : Bound)
  | write (w : Write)
  deriving DecidableEq

inductive Answer where
  | value (v : Option Value)
  | entry (e : Option Entry)
  | written
  deriving DecidableEq

abbrev Outcome := Except StoreError Answer

namespace Call

section

variable {σ : Type} [KeyValueStore σ]

def run : Call → StoreM σ Answer
  | get k => Answer.value <$> KeyValueReader.get? k
  | firstAtLeast k => Answer.entry <$> KeyValueReader.firstAtLeast k
  | lastBelow b => Answer.entry <$> KeyValueReader.lastBelow b
  | write w => (fun _ => Answer.written) <$> w.perform

/-- Performs calls one after the other, also after one that fails. -/
def replay : List Call → σ → List Outcome × σ
  | [], s => ([], s)
  | c :: cs, s => ((c.run s).1 :: (replay cs (c.run s).2).1, (replay cs (c.run s).2).2)

@[simp] theorem replay_nil (s : σ) : replay [] s = ([], s) := rfl

theorem replay_append (cs ds : List Call) (s : σ) :
    replay (cs ++ ds) s =
      ((replay cs s).1 ++ (replay ds (replay cs s).2).1, (replay ds (replay cs s).2).2) := by
  induction cs generalizing s with
  | nil => rfl
  | cons c cs ih => simp [replay, ih]

theorem replay_singleton (c : Call) (s : σ) : replay [c] s = ([(c.run s).1], (c.run s).2) := rfl

end

/-- The fault of a call that no store carries out: a range removal with its bounds out of order. -/
def fault? : Call → Option StoreError
  | write (.removeRange low high) =>
    match KeyRange.between low high with
    | .ok _ => none
    | .error why => some why
  | _ => none

/-- A call that is at fault itself is not to be made again. -/
theorem isRetryable_of_fault {c : Call} {why : StoreError} (h : c.fault? = some why) :
    why.isRetryable = false := by
  cases c with
  | write w =>
    cases w with
    | removeRange low high =>
      simp only [fault?, KeyRange.between] at h
      cases hr : KeyRange.between? low high with
      | some r => simp [hr] at h
      | none =>
        simp only [hr, Option.some.injEq] at h
        subst h
        rfl
    | _ => simp [fault?] at h
  | _ => simp [fault?] at h

/-- The keys that a call is about to change. -/
def Reaches : Call → Key → Prop
  | write (.put k _), x => x = k
  | write (.remove k), x => x = k
  | write (.removeRange low high), x => low ≤ x ∧ Bound.key x < high
  | write (.adjust k _), x => x = k
  | _, _ => False

/-! ## On plain stores -/

variable {m n : Store}

theorem run_get_store (k : Key) (m : Store) : (get k).run m = (.ok (.value (m.get? k)), m) := rfl

theorem run_firstAtLeast_store (k : Key) (m : Store) :
    (firstAtLeast k).run m = (.ok (.entry (m.firstAtLeast k)), m) := rfl

theorem run_lastBelow_store (b : Bound) (m : Store) :
    (lastBelow b).run m = (.ok (.entry (m.lastBelow b)), m) := rfl

theorem run_put_store (k : Key) (v : Value) (m : Store) :
    (write (.put k v)).run m = (.ok .written, m.insert k v) := rfl

theorem run_remove_store (k : Key) (m : Store) :
    (write (.remove k)).run m = (.ok .written, m.erase k) := rfl

theorem run_adjust_store (k : Key) (amount : Int64) (m : Store) :
    (write (.adjust k amount)).run m = (.ok .written, m.adjust k amount) := rfl

theorem run_removeRange_store (low : Key) (high : Bound) (m : Store) :
    (write (.removeRange low high)).run m =
      match KeyRange.between low high with
      | .ok r => (.ok .written, m.removeRange r)
      | .error why => (.error why, m) := by
  rw [run, StoreM.map_apply, Write.perform, Store.removeRange_apply]
  cases KeyRange.between low high <;> rfl

/-- A plain store turns down a call that is at fault, and stays as it is. -/
theorem run_store_of_fault {c : Call} {why : StoreError} (h : c.fault? = some why) (m : Store) :
    c.run m = (.error why, m) := by
  cases c with
  | write w =>
    cases w with
    | removeRange low high =>
      rw [run_removeRange_store]
      unfold fault? at h
      cases hr : KeyRange.between low high <;> simp_all
    | _ => simp [fault?] at h
  | _ => simp [fault?] at h

/-- A call leaves the other keys as they are. -/
theorem get?_run_of_not_reaches {c : Call} {k : Key} (h : ¬c.Reaches k) (m : Store) :
    (c.run m).2.get? k = m.get? k := by
  cases c with
  | get x => rfl
  | firstAtLeast x => rfl
  | lastBelow b => rfl
  | write w =>
    cases w with
    | put x v => exact (SortedMap.get?_insert m x k v).trans (if_neg h)
    | remove x => exact (SortedMap.get?_erase m x k).trans (if_neg h)
    | adjust x amount => exact (Store.get?_adjust m x k amount).trans (if_neg h)
    | removeRange low high =>
      rw [run_removeRange_store, KeyRange.between, KeyRange.between?]
      by_cases hle : Bound.key low ≤ high
      · have hout : ¬(⟨low, high, hle⟩ : KeyRange).contains k = true := fun hk => h (KeyRange.contains_iff.1 hk)
        rw [dif_pos hle]
        dsimp only
        rw [Store.get?_removeRange, if_neg hout]
      · rw [dif_neg hle]

/-- A call treats each key on its own. -/
theorem get?_run_congr (c : Call) {k : Key} (h : m.get? k = n.get? k) :
    (c.run m).2.get? k = (c.run n).2.get? k := by
  cases c with
  | get x => exact h
  | firstAtLeast x => exact h
  | lastBelow b => exact h
  | write w =>
    cases w with
    | put x v => rw [run_put_store, run_put_store, SortedMap.get?_insert, SortedMap.get?_insert, h]
    | remove x => rw [run_remove_store, run_remove_store, SortedMap.get?_erase, SortedMap.get?_erase, h]
    | removeRange low high =>
      rw [run_removeRange_store, run_removeRange_store]
      cases KeyRange.between low high with
      | ok r => rw [Store.get?_removeRange, Store.get?_removeRange, h]
      | error why => exact h
    | adjust x amount =>
      rw [run_adjust_store, run_adjust_store, Store.get?_adjust, Store.get?_adjust]
      by_cases hk : k = x
      · subst hk
        simp [h]
      · simp [hk, h]

/-- Keys that agree in two stores agree after the same calls. -/
theorem get?_replay_congr (cs : List Call) {k : Key} (h : m.get? k = n.get? k) :
    (replay cs m).2.get? k = (replay cs n).2.get? k := by
  induction cs generalizing m n with
  | nil => exact h
  | cons c cs ih => exact ih (get?_run_congr c h)

/-- A plain store carries out any other call. -/
theorem exists_run_store {c : Call} (h : c.fault? = none) (m : Store) : ∃ a, (c.run m).1 = .ok a := by
  cases c with
  | get k => exact ⟨_, rfl⟩
  | firstAtLeast k => exact ⟨_, rfl⟩
  | lastBelow b => exact ⟨_, rfl⟩
  | write w =>
    cases w with
    | put k v => exact ⟨_, rfl⟩
    | remove k => exact ⟨_, rfl⟩
    | adjust k amount => exact ⟨_, rfl⟩
    | removeRange low high =>
      rw [run_removeRange_store]
      cases hr : KeyRange.between low high with
      | ok r => exact ⟨_, rfl⟩
      | error why => simp [fault?, hr] at h

/-- On a plain store all calls succeed that are not at fault themselves. -/
theorem exists_of_mem_replay_store {cs : List Call} (h : ∀ c ∈ cs, c.fault? = none) {o : Outcome}
    (ho : o ∈ (replay cs m).1) : ∃ a, o = .ok a := by
  induction cs generalizing m with
  | nil => exact absurd ho List.not_mem_nil
  | cons c cs ih =>
    obtain ⟨hc, hcs⟩ := List.forall_mem_cons.1 h
    rcases List.mem_cons.1 ho with rfl | ho
    · exact exists_run_store hc m
    · exact ih hcs ho

/-! ## Batches as calls -/

section

variable {σ : Type} [KeyValueStore σ]

theorem perform_of_run_ok {w : Write} {s : σ} {a : Answer} (h : ((write w).run s).1 = .ok a) :
    w.perform s = (.ok (), ((write w).run s).2) := by
  rw [run, StoreM.map_apply] at h ⊢
  rcases hw : w.perform s with ⟨why | _, s'⟩
  · rw [hw] at h
    cases h
  · rfl

/-- Writes that all succeed are calls one after the other. -/
theorem forM_perform {ws : List Write} {s : σ} (h : ∀ o ∈ (replay (ws.map .write) s).1, ∃ a, o = .ok a) :
    (forM ws Write.perform : StoreM σ Unit) s = (.ok (), (replay (ws.map .write) s).2) := by
  induction ws generalizing s with
  | nil => rfl
  | cons w ws ih =>
    rw [List.map_cons, replay] at h ⊢
    obtain ⟨⟨a, ha⟩, hrest⟩ := List.forall_mem_cons.1 h
    rw [List.forM_cons, StoreM.bind_ok (perform_of_run_ok ha), ih hrest]

end

end Call

theorem forIn_eq_forM {μ : Type → Type} [Monad μ] [LawfulMonad μ] {α : Type} (xs : List α) (f : α → μ Unit) :
    (forIn xs PUnit.unit fun x _ => do f x; pure (ForInStep.yield PUnit.unit)) = forM xs f := by
  induction xs with
  | nil => rfl
  | cons x xs ih => simp only [List.forIn_cons, List.forM_cons, bind_assoc, pure_bind, ih]

namespace Batch

/-- The writes of a batch one by one: the removals, then the puts, then the adjustments. -/
def toWrites (b : Batch) : List Write :=
  b.removes.ranges.toList.map (fun r => .removeRange r.low r.high) ++ b.puts.toList.map (fun e => .put e.1 e.2) ++
    b.adjusts.toList.map fun e => .adjust e.1 e.2

def calls (b : Batch) : List Call := b.toWrites.map .write

theorem applyTo_eq {σ : Type} [KeyValueStore σ] (b : Batch) :
    (b.applyTo : StoreM σ Unit) = forM b.toWrites Write.perform := by
  simp only [toWrites, List.forM_append, List.forM_map, Write.perform, applyTo, forIn_eq_forM, bind_assoc,
    bind_pure_unit]

/-- The ranges of a batch have their bounds in order. -/
theorem fault?_of_mem_calls {b : Batch} {c : Call} (h : c ∈ b.calls) : c.fault? = none := by
  obtain ⟨w, hw, rfl⟩ := List.mem_map.1 h
  simp only [toWrites, List.mem_append, List.mem_map] at hw
  rcases hw with (⟨r, -, rfl⟩ | ⟨e, -, rfl⟩) | ⟨e, -, rfl⟩
  · rw [Call.fault?, KeyRange.between_of_le r.low_le_high]
  · rfl
  · rfl

end Batch

end Keyspace
