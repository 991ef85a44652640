import Keyspace.Proofs.RangeAlgebra
import Keyspace.Proofs.Readers

/-!
What a transaction has recorded as read is all that it depends on. Which keys a call records is settled by the call and
its outcome, so two transactions that look alike on the recorded keys go on to answer and to record alike, although
their views may come to differ elsewhere: an adjustment looks at a counter without recording it.
-/
namespace Keyspace

/-- The keys that the outcome of a call depends on. A search depends on all keys from its start to the entry found. -/
def Call.Consults : Call → Outcome → Key → Prop
  | get k, .ok _, x => x = k
  | firstAtLeast k, .ok (.entry found), x => k ≤ x ∧ ∀ e ∈ found, x ≤ e.1
  | lastBelow b, .ok (.entry found), x => Bound.key x < b ∧ ∀ e ∈ found, e.1 ≤ x
  | _, _, _ => False

namespace Transaction

variable {t u : Transaction} {s : RangeSet}

/-- A call records the keys that its outcome depends on, and no others. -/
theorem contains_reads_run (c : Call) (t : Transaction) (x : Key) :
    (c.run t).2.reads.contains x = true ↔ t.reads.contains x = true ∨ c.Consults (c.run t).1 x := by
  cases hexpired : t.expired? with
  | some limit =>
    cases hfault : c.fault? with
    | some why =>
      rw [run_of_fault hfault]
      cases c <;> simp [Call.Consults]
    | none =>
      rw [run_of_expired hexpired hfault]
      cases c <;> simp [Call.Consults]
  | none =>
    cases c with
    | get k =>
      rw [Call.run, StoreM.map_apply, get?_apply hexpired]
      exact RangeSet.contains_add.trans (or_congr_right KeyRange.contains_single)
    | firstAtLeast k =>
      obtain ⟨r, hrun, hr⟩ := firstAtLeast_apply hexpired k
      rw [Call.run, StoreM.map_apply, hrun]
      exact RangeSet.contains_add.trans (or_congr_right (hr x))
    | lastBelow b =>
      obtain ⟨r, hrun, hr⟩ := lastBelow_apply hexpired b
      rw [Call.run, StoreM.map_apply, hrun]
      exact RangeSet.contains_add.trans (or_congr_right (hr x))
    | write w =>
      rw [reads_run_write]
      simp [Call.Consults]

/-- What a call records is settled by its outcome. -/
theorem reads_run_congr {c : Call} (hreads : u.reads = t.reads) (houtcome : (c.run u).1 = (c.run t).1) :
    (c.run u).2.reads = (c.run t).2.reads := by
  apply RangeSet.keys_injective
  ext x
  rw [RangeSet.mem_keys_iff, RangeSet.mem_keys_iff, contains_reads_run, contains_reads_run, houtcome, hreads]

/-- Two transactions that have recorded the same and look up the keys of a set alike. -/
structure AgreeOn (s : RangeSet) (t u : Transaction) : Prop where
  limit : u.limit = t.limit
  age : u.age = t.age
  reads : u.reads = t.reads
  views : ∀ k, s.contains k = true → u.view.get? k = t.view.get? k

/-- A call that has recorded no key outside the set comes to the same in both. -/
theorem AgreeOn.run (h : AgreeOn s t u) (c : Call)
    (hs : ∀ k, (c.run t).2.reads.contains k = true → s.contains k = true) :
    (c.run u).1 = (c.run t).1 ∧ AgreeOn s (c.run t).2 (c.run u).2 := by
  have hexpired : u.expired? = t.expired? := by rw [expired?, expired?, h.limit, h.age]
  cases hfault : c.fault? with
  | some why =>
    rw [run_of_fault hfault, run_of_fault hfault]
    exact ⟨rfl, h⟩
  | none =>
    cases hopen : t.expired? with
    | some limit =>
      rw [run_of_expired hopen hfault, run_of_expired (hexpired.trans hopen) hfault]
      exact ⟨rfl, h⟩
    | none =>
      -- each transaction is a plain store, and these stores agree on the set
      have hstores : ∀ k, s.contains k = true → t.view.contents.get? k = u.view.contents.get? k := fun k hk => by
        rw [Overlay.get?_contents, Overlay.get?_contents, h.views k hk]
      obtain ⟨hanswer, hshows⟩ := run_shows hopen t.shows_contents c
      obtain ⟨hanswer', hshows'⟩ := run_shows (hexpired.trans hopen) u.shows_contents c
      have hsame := run_answer_congr hopen t.shows_contents c fun k hk => hstores k (hs k hk)
      have houtcome : (c.run u).1 = (c.run t).1 := by rw [hanswer', hanswer, hsame]
      have ht := run_extends c t
      have hu := run_extends c u
      refine ⟨houtcome, by rw [hu.limit, ht.limit, h.limit], by rw [hu.age, ht.age, h.age],
        reads_run_congr h.reads houtcome, fun k hk => ?_⟩
      rw [hshows' k, hshows k, Call.get?_run_congr c (hstores k hk)]

/-! ## Sequences of operations -/

inductive Operation where
  | call (c : Call)
  | setLimit (ms : Nat)
  | elapse (ms : Nat)
  deriving DecidableEq

/-- Performs operations one after the other, also after one that fails; only calls have outcomes. -/
def perform : List Operation → Transaction → List Outcome × Transaction
  | [], t => ([], t)
  | .call c :: ops, t => ((c.run t).1 :: (perform ops (c.run t).2).1, (perform ops (c.run t).2).2)
  | .setLimit ms :: ops, t => perform ops (t.setLimit ms)
  | .elapse ms :: ops, t => perform ops (t.elapse ms)

/-- Keys recorded as read stay recorded. -/
theorem contains_reads_perform (ops : List Operation) {k : Key} (hk : t.reads.contains k = true) :
    (perform ops t).2.reads.contains k = true := by
  induction ops generalizing t with
  | nil => exact hk
  | cons op ops ih =>
    cases op with
    | call c => exact ih ((run_extends c t).reads k hk)
    | setLimit ms => exact ih hk
    | elapse ms => exact ih hk

/-- Operations that record no key outside the set come to the same in both. -/
theorem AgreeOn.perform (h : AgreeOn s t u) (ops : List Operation)
    (hs : ∀ k, (perform ops t).2.reads.contains k = true → s.contains k = true) :
    (Transaction.perform ops u).1 = (Transaction.perform ops t).1 ∧
      AgreeOn s (Transaction.perform ops t).2 (Transaction.perform ops u).2 := by
  induction ops generalizing t u with
  | nil => exact ⟨rfl, h⟩
  | cons op ops ih =>
    cases op with
    | call c =>
      obtain ⟨houtcome, hnext⟩ := h.run c fun k hk => hs k (contains_reads_perform ops hk)
      obtain ⟨houtcomes, hlast⟩ := ih hnext hs
      exact ⟨by rw [Transaction.perform, Transaction.perform, houtcome, houtcomes], hlast⟩
    | setLimit ms => exact ih ⟨rfl, h.age, h.reads, h.views⟩ hs
    | elapse ms => exact ih ⟨h.limit, congrArg (· + ms) h.age, h.reads, h.views⟩ hs

/-- What a transaction reads depends on the data only through its recorded reads. Perform any operations in a
transaction on some data. On all data that agree with these on the keys then recorded as read, in which of them have
values and in the values, the same operations have the same outcomes and record the same reads. -/
theorem perform_eq_of_agree_on_reads (ops : List Operation) (version version' : Nat) (m n : Store)
    (h : ∀ k, (perform ops (start version m)).2.reads.contains k = true → n.get? k = m.get? k) :
    (perform ops (start version' n)).1 = (perform ops (start version m)).1 ∧
      (perform ops (start version' n)).2.reads = (perform ops (start version m)).2.reads := by
  have hstart : AgreeOn (perform ops (start version m)).2.reads (start version m) (start version' n) :=
    ⟨rfl, rfl, rfl, fun k hk => by rw [shows_start, shows_start, h k hk]⟩
  obtain ⟨houtcomes, hagree⟩ := hstart.perform ops fun _ hk => hk
  exact ⟨houtcomes, hagree.reads⟩

/-- A counter that only the first data have is adjusted, so that only the first transaction comes to hold a value for
it; searches pass near it on both sides, over a removed range and over keys without values, until the limit is over. -/
theorem perform_eq_of_agree_on_reads_beside_counter :
    let m : Store := ([([1], [1]), ([3], [3]), ([7], Counter.encode 4), ([9], [9])] : List Entry).foldl
      (fun m e => m.insert e.1 e.2) .empty
    let n : Store := m.erase [7]
    let ops : List Operation := [.call (.write (.adjust [7] 5)), .call (.firstAtLeast [2]), .call (.lastBelow (.key [7])),
      .call (.write (.removeRange [8] (.key [10]))), .setLimit 10, .call (.firstAtLeast [8]), .elapse 5,
      .call (.get [6]), .elapse 6, .call (.get [7])]
    (∀ k, (perform ops (start 1 m)).2.reads.contains k = true → n.get? k = m.get? k) ∧
      n.get? [7] ≠ m.get? [7] ∧ (perform ops (start 1 n)).2.view.puts ≠ (perform ops (start 1 m)).2.view.puts ∧
      (perform ops (start 1 n)).1 =
        [.ok .written, .ok (.entry (some ([3], [3]))), .ok (.entry (some ([3], [3]))), .ok .written,
          .ok (.entry none), .ok (.value none), .error (.retry (.timedOut 10))] ∧
      (perform ops (start 1 n)).2.reads = (perform ops (start 1 m)).2.reads := by
  intro m n ops
  have hunread : (perform ops (start 1 m)).2.reads.contains [7] = false := by decide +kernel
  have hagree : ∀ k, (perform ops (start 1 m)).2.reads.contains k = true → n.get? k = m.get? k := by
    intro k hk
    have hne : k ≠ [7] := by
      rintro rfl
      rw [hunread] at hk
      cases hk
    exact (SortedMap.get?_erase m [7] k).trans (if_neg hne)
  obtain ⟨houtcomes, hreads⟩ := perform_eq_of_agree_on_reads ops 1 1 m n hagree
  exact ⟨hagree, by decide +kernel, by decide +kernel, houtcomes.trans (by decide +kernel), hreads⟩

end Transaction

end Keyspace
