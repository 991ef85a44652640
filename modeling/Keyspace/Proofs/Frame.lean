import Keyspace.Proofs.Database
import Keyspace.Proofs.Writes

/-!
What commits leave alone. A batch changes the entries under the keys that it declares as written and no others. It
declares hardly any in vain: a declared key that keeps its entry in every store is one whose counter is moved by zero.
So a key that none of some commits has written is as it was before them.
-/
namespace Keyspace

/-- Any value may be stored under a key. -/
theorem Store.exists_get?_eq (k : Key) (v : Option Value) : ∃ m : Store, m.get? k = v := by
  cases v with
  | none => exact ⟨.empty, rfl⟩
  | some v => exact ⟨.insert .empty k v, SortedMap.get?_insert_self ..⟩

theorem Store.adjusted_zero (v : Option Value) : adjusted 0 v = v := by
  unfold adjusted
  split
  · next n hn =>
    obtain ⟨x, rfl, hx⟩ := Option.bind_eq_some_iff.1 hn
    rw [Int64.add_zero, Counter.encode_of_decode? hx]
  · rfl

/-- An adjustment makes no entry and takes none away. -/
theorem Store.isSome_adjusted (amount : Int64) (v : Option Value) : (adjusted amount v).isSome = v.isSome := by
  cases v with
  | none => rfl
  | some v =>
    rw [← some_getD_adjusted]
    rfl

namespace Batch

variable {b : Batch} {k : Key}

/-- The entries of a store under the keys that a batch does not declare as written. -/
def unwritten (b : Batch) (m : Store) : Store := m.filter fun e => !b.written.contains e.1

theorem get?_unwritten (b : Batch) (m : Store) (k : Key) :
    (b.unwritten m).get? k = if b.written.contains k then none else m.get? k := by
  rw [unwritten, SortedMap.get?_filter_key fun x => !b.written.contains x]
  cases b.written.contains k <;> rfl

theorem unwritten_apply (b : Batch) (m : Store) : b.unwritten (b.apply m) = b.unwritten m := by
  refine SortedMap.ext_get? fun k => ?_
  rw [get?_unwritten, get?_unwritten]
  cases hk : b.written.contains k with
  | true => rfl
  | false => exact get?_apply_of_not_written hk m

/-- All that a batch does about a key is to move its counter by zero. -/
structure AddsNothing (b : Batch) (k : Key) : Prop where
  kept : b.removes.contains k = false
  unput : b.puts.get? k = none
  amount : b.adjusts.get? k = some 0

theorem AddsNothing.outcome (h : b.AddsNothing k) (v : Option Value) : b.outcome k v = v := by
  simp [Batch.outcome, h.kept, h.unput, h.amount, Store.adjusted_zero]

/-- A key has an entry after a batch that puts one there, or if it had one that the batch does not remove. -/
theorem isSome_outcome (b : Batch) (k : Key) (v : Option Value) :
    (b.outcome k v).isSome = ((b.puts.get? k).isSome || !b.removes.contains k && v.isSome) := by
  have hput : ((b.puts.get? k).or (bif b.removes.contains k then none else v)).isSome =
      ((b.puts.get? k).isSome || !b.removes.contains k && v.isSome) := by
    cases b.puts.get? k <;> cases b.removes.contains k <;> simp
  rw [outcome]
  cases b.adjusts.get? k with
  | none => exact hput
  | some amount => exact (Store.isSome_adjusted amount _).trans hput

/-- A written key that keeps every value: it is not put, as then it would get one; nor removed, as then it would lose
one; and the amount by which its counter moves is zero. -/
theorem addsNothing_of_outcome (hk : b.written.contains k = true) (h : ∀ v, b.outcome k v = v) : b.AddsNothing k := by
  have hunput : b.puts.get? k = none := by
    have habsent := b.isSome_outcome k none
    rw [h none] at habsent
    simpa using habsent
  have hkept : b.removes.contains k = false := by
    have hpresent := b.isSome_outcome k (some [])
    rw [h (some []), hunput] at hpresent
    simpa using hpresent
  refine ⟨hkept, hunput, ?_⟩
  obtain hremove | ⟨v, hput⟩ | ⟨amount, hadjust⟩ := contains_written.1 hk
  · simp [hkept] at hremove
  · simp [hunput] at hput
  · have hzero : some (Counter.encode (0 + amount)) = some (Counter.encode 0) := by
      simpa [outcome, hunput, hkept, hadjust, Store.adjusted] using h (some (Counter.encode 0))
    have hdecode := congrArg Counter.decode? (Option.some.inj hzero)
    rw [Counter.decode?_encode, Counter.decode?_encode, Int64.zero_add] at hdecode
    rw [hadjust, hdecode]

/-- A key keeps its entry in every store just if it is not written or its counter is moved by zero. -/
theorem get?_apply_eq_iff :
    (∀ m : Store, (b.apply m).get? k = m.get? k) ↔ b.written.contains k = false ∨ b.AddsNothing k := by
  constructor
  · intro h
    cases hk : b.written.contains k with
    | false => exact .inl rfl
    | true =>
      refine .inr (addsNothing_of_outcome hk fun v => ?_)
      obtain ⟨m, rfl⟩ := Store.exists_get?_eq k v
      rw [← get?_apply, h]
  · rintro (hk | hk) m
    · exact get?_apply_of_not_written hk m
    · rw [get?_apply, hk.outcome]

end Batch

namespace Database

/-- A commit changes no key that its transaction has not written, whether it succeeds or fails. -/
theorem get?_commit_of_not_written (db : Database) {t : Transaction} {k : Key}
    (h : t.writes.written.contains k = false) :
    (TransactionalDatabase.commit t db).2.data.get? k = db.data.get? k := by
  rcases commit_cases db t with ⟨why, hcommit⟩ | ⟨-, hcommit⟩ | ⟨-, -, hcommit⟩
  · rw [hcommit]
  · rw [hcommit]
  · rw [hcommit]
    exact Batch.get?_apply_of_not_written h db.data

/-- Nor do any commits in a row change a key that none of their transactions has written. -/
theorem get?_foldl_commit_of_not_written {ts : List Transaction} {k : Key}
    (h : ∀ t ∈ ts, t.writes.written.contains k = false) (db : Database) :
    (ts.foldl (fun db t => (TransactionalDatabase.commit t db).2) db).data.get? k = db.data.get? k := by
  induction ts generalizing db with
  | nil => rfl
  | cons t ts ih =>
    obtain ⟨ht, hts⟩ := List.forall_mem_cons.1 h
    rw [List.foldl_cons, ih hts, get?_commit_of_not_written db ht]

/-- Commits change no keys but those that are declared as written. A batch declares just the keys of the ranges that it
removes and those that it puts or adjusts. Under any other key it leaves the entry as it is, and all these entries
together are the same part of the store as before, also where the counters are adjusted in their place; under a declared
key some store has its entry changed, unless its counter is moved by zero and that is all. And commits in a row, failed
ones among them, leave the entry alone under a key that none of the transactions has declared. -/
theorem commits_change_written :
    (∀ (b : Batch) (k : Key), b.written.contains k = true ↔
      b.removes.contains k = true ∨ k ∈ b.puts.keys ∨ k ∈ b.adjusts.keys) ∧
    (∀ (b : Batch) (m : Store),
      (∀ k, b.written.contains k = false →
        (b.apply m).get? k = m.get? k ∧ (b.applyInPlace m).get? k = m.get? k) ∧
      b.unwritten (b.apply m) = b.unwritten m) ∧
    (∀ (b : Batch) (k : Key),
      (∀ m : Store, (b.apply m).get? k = m.get? k) ↔ b.written.contains k = false ∨ b.AddsNothing k) ∧
    ∀ (ts : List Transaction) (db : Database) (k : Key), (∀ t ∈ ts, t.writes.written.contains k = false) →
      (ts.foldl (fun db t => (TransactionalDatabase.commit t db).2) db).data.get? k = db.data.get? k := by
  refine ⟨fun b k => ?_, fun b m => ⟨fun k hk => ?_, b.unwritten_apply m⟩, fun b k => Batch.get?_apply_eq_iff,
    fun ts db k hk => get?_foldl_commit_of_not_written hk db⟩
  · rw [Batch.contains_written, SortedMap.mem_keys_iff, SortedMap.mem_keys_iff]
  · have hkeeps := Batch.get?_apply_of_not_written hk m
    exact ⟨hkeeps, (congrArg (SortedMap.get? · k) (b.applyInPlace_eq m)).trans hkeeps⟩

/-- A batch that removes the keys from `1` up to `3`, puts one of them again and adjusts a counter leaves the entry at
the end of the range alone, and so do two commits of it. -/
theorem commits_change_written_between :
    let b := ((Batch.empty.removeRange ⟨[1], .key [3], by decide⟩).put [2] [9]).adjust [7] 5
    let m : Store := ([([1], [1]), ([2], [2]), ([3], [3]), ([7], Counter.encode 4)] : List Entry).foldl
      (fun m e => m.insert e.1 e.2) .empty
    let db : Database := { create 2 with started := true, data := m }
    let t : Transaction := { Transaction.start 0 m with writes := b }
    let committed := [t, { t with startVersion := 1 }].foldl (fun db t => (TransactionalDatabase.commit t db).2) db
    b.written.contains [3] = false ∧ (b.apply m).get? [3] = some [3] ∧ (b.applyInPlace m).get? [3] = some [3] ∧
      (b.apply m).keys = [[2], [3], [7]] ∧ committed.version = 2 ∧ committed.data.get? [3] = some [3] := by
  intro b m db t committed
  obtain ⟨hwritten, hframe, -, hcommits⟩ := commits_change_written
  have hunwritten : b.written.contains [3] = false :=
    Bool.eq_false_iff.2 (mt (hwritten b [3]).1 (by decide +kernel))
  have hentry : m.get? [3] = some [3] := by decide +kernel
  obtain ⟨happly, hplace⟩ := (hframe b m).1 [3] hunwritten
  have hrun := hcommits [t, { t with startVersion := 1 }] db [3] (by simpa using hunwritten)
  exact ⟨hunwritten, happly.trans hentry, hplace.trans hentry, by decide +kernel, by decide +kernel,
    hrun.trans hentry⟩

end Database

end Keyspace
