import Keyspace.Proofs.AtomicSession

/-!
Snapshots of an atomic store. A snapshot goes on to show the data that were committed when it was taken, whatever
happens then; to everything else it makes no difference whether there are snapshots at all; and the store counts just
those that were dropped with no panic unwinding, to which the use of a snapshot adds none, however it ends.
-/
namespace Keyspace

def Completion.isPanicked {α : Type} : Completion α → Bool
  | panicked => true
  | _ => false

namespace AtomicSession

/-- What is done with a snapshot, and not with the store. -/
def Event.onSnapshot : Event → Bool
  | openSnapshot | releaseSnapshot _ _ | read _ _ | beginUse | endUse _ _ => true
  | _ => false

def Event.isLeak : Event → Bool
  | releaseSnapshot _ how => how.isLeak
  | _ => false

variable {s : AtomicSession}

/-! ## What a step can do to the snapshots -/

/-- What can become of a snapshot: once it is given up it stays so, and one that is lent never leaks. -/
structure Moves (x y : Taken) : Prop where
  data : y.data = x.data
  view : y.snapshot.transaction.view = x.snapshot.transaction.view
  custody : y.custody = x.custody ∨ x.custody.isOpen = true ∧
    ∃ how, y.custody = .released how ∧ (x.custody = .lent → how.isLeak = false)

theorem Moves.refl (x : Taken) : Moves x x := ⟨rfl, rfl, .inl rfl⟩

theorem Moves.trans {x y z : Taken} (h : Moves x y) (h' : Moves y z) : Moves x z := by
  refine ⟨h'.data.trans h.data, h'.view.trans h.view, ?_⟩
  rcases h.custody with hsame | ⟨hopen, how, hreleased, hlent⟩
  · rw [← hsame]
    exact h'.custody
  · rcases h'.custody with hsame' | ⟨hopen', -⟩
    · exact .inr ⟨hopen, how, hsame'.trans hreleased, hlent⟩
    · rw [hreleased] at hopen'
      cases hopen'

/-- All that an event can do to the snapshots and to the count of the leaks. -/
inductive Changes (e : Event) (s s' : AtomicSession) : Prop where
  | none (htaken : s'.taken = s.taken) (hleaked : s'.store.leaked = s.store.leaked)
  | taken (x : Taken) (hopen : x.custody.isOpen = true) (hdata : x.data = s.store.db.data)
    (hview : x.snapshot.transaction.view = .ofStore x.data) (htaken : s'.taken = s.taken ++ [x])
    (hleaked : s'.store.leaked = s.store.leaked)
  | moved (i : Nat) (x y : Taken) (hget : s.taken[i]? = some x) (hopen : x.custody.isOpen = true) (hmoves : Moves x y)
    (hleak : y.custody.isLeak = e.isLeak) (htaken : s'.taken = s.taken.set i y)
    (hleaked : s'.store.leaked = s.store.leaked + if y.custody.isLeak then 1 else 0)
  | aged (f : Taken → Taken) (hmoves : ∀ x, Moves x (f x) ∧ (f x).custody = x.custody)
    (htaken : s'.taken = s.taken.map f) (hleaked : s'.store.leaked = s.store.leaked)

theorem changes_take {e : Event} {custody : Custody} (hopen : custody.isOpen = true) :
    Changes e s (s.take custody) := by
  rcases s.take_cases custody with hsame | ⟨x, hcustody, hdata, hview, htaken⟩
  · rw [hsame]
    exact .none rfl rfl
  · rw [htaken]
    exact .taken x (hcustody ▸ hopen) hdata hview rfl rfl

theorem changes_release {e : Event} (i : Nat) {custody : Custody} {how : Release} (hopen : custody.isOpen = true)
    (hleak : how.isLeak = e.isLeak) (hlent : custody = .lent → how.isLeak = false) :
    Changes e s (s.release i custody how) := by
  rcases s.release_cases i custody how with hsame | ⟨x, hget, rfl, hreleased⟩
  · rw [hsame]
    exact .none rfl rfl
  · rw [hreleased]
    exact .moved i x { x with custody := .released how } hget hopen ⟨rfl, rfl, .inr ⟨hopen, how, rfl, hlent⟩⟩ hleak
      rfl rfl

theorem leaked_inTransaction (action : StoreM (Transaction × Database) Answer) (store : AtomicStore Database) :
    (AtomicStore.inTransaction action store).2.leaked = store.leaked := by
  obtain ⟨result, db, hrun⟩ := AtomicStore.inTransaction_leaked action store
  exact congrArg (fun r => r.2.leaked) (hrun store.leaked)

/-- No event does anything else to them. -/
theorem step_changes (s : AtomicSession) (e : Event) : Changes e s (s.step e) := by
  cases e with
  | start => exact .none rfl rfl
  | stop => exact .none rfl rfl
  | configure config =>
    refine .none rfl ?_
    rw [step, setConfig_apply]
    cases s.store.started <;> rfl
  | request r =>
    refine .none rfl ?_
    rw [step, AtomicStore.perform_eq]
    exact leaked_inTransaction _ s.store
  | transact action => exact .none rfl (leaked_inTransaction action s.store)
  | openSnapshot => exact changes_take rfl
  | releaseSnapshot i how => exact changes_release i rfl rfl fun hlent => absurd hlent (by decide)
  | read i q =>
    rw [step]
    cases hx : s.find? i Custody.isOpen with
    | none => exact .none rfl rfl
    | some x =>
      obtain ⟨hget, hopen⟩ := find?_eq_some_iff.1 hx
      have hleak : x.custody.isLeak = false := Custody.isLeak_of_isOpen hopen
      refine .moved i x { x with snapshot := (q.run x.snapshot).2 } hget hopen
        ⟨rfl, Snapshot.view_inquiry q x.snapshot, .inl rfl⟩ hleak rfl ?_
      rw [hleak]
      rfl
  | beginUse => exact changes_take rfl
  | endUse i panicked => cases panicked <;> exact changes_release i rfl rfl fun _ => rfl
  | outside e =>
    refine .aged (age e) (fun x => ?_) rfl rfl
    cases e <;> exact ⟨⟨rfl, rfl, .inl rfl⟩, rfl⟩

/-- A snapshot keeps its number and what it shows. -/
theorem step_moves {i : Nat} {x : Taken} (hget : s.taken[i]? = some x) (e : Event) :
    ∃ y, (s.step e).taken[i]? = some y ∧ Moves x y := by
  cases s.step_changes e with
  | none htaken hleaked => exact ⟨x, htaken ▸ hget, .refl x⟩
  | taken y hopen hdata hview htaken hleaked =>
    refine ⟨x, ?_, .refl x⟩
    rw [htaken, List.getElem?_append_left (List.getElem?_eq_some_iff.1 hget).1, hget]
  | moved j x' y hget' hopen hmoves hleak htaken hleaked =>
    rw [htaken]
    by_cases hij : j = i
    · subst hij
      obtain rfl : x' = x := Option.some.inj (hget'.symm.trans hget)
      exact ⟨y, List.getElem?_set_self (List.getElem?_eq_some_iff.1 hget).1, hmoves⟩
    · exact ⟨x, (List.getElem?_set_ne hij).trans hget, .refl x⟩
  | aged f hmoves htaken hleaked =>
    refine ⟨f x, ?_, (hmoves x).1⟩
    rw [htaken, List.getElem?_map, hget]
    rfl

theorem run_moves {i : Nat} {x : Taken} (hget : s.taken[i]? = some x) (es : List Event) :
    ∃ y, (s.run es).taken[i]? = some y ∧ Moves x y := by
  induction es generalizing s x with
  | nil => exact ⟨x, hget, .refl x⟩
  | cons e es ih =>
    obtain ⟨y, hy, hmoves⟩ := step_moves hget e
    obtain ⟨z, hz, hmoves'⟩ := ih hy
    exact ⟨z, hz, hmoves.trans hmoves'⟩

/-- A new snapshot is one of the data as they are. -/
theorem data_of_taken {e : Event} {x : Taken} (h : (s.step e).taken = s.taken ++ [x]) : x.data = s.store.db.data := by
  have hlength := congrArg List.length h
  rw [List.length_append, List.length_singleton] at hlength
  cases s.step_changes e with
  | taken y hopen hdata hview htaken hleaked =>
    obtain rfl : y = x := List.singleton_inj.1 (List.append_cancel_left (htaken.symm.trans h))
    exact hdata
  | none htaken hleaked =>
    rw [htaken] at hlength
    omega
  | moved j x' y hget hopen hmoves hleak htaken hleaked =>
    rw [htaken, List.length_set] at hlength
    omega
  | aged f hmoves htaken hleaked =>
    rw [htaken, List.length_map] at hlength
    omega

/-- The count grows by nothing but a leak. -/
theorem leaked_step {e : Event} (h : e.isLeak = false) : (s.step e).store.leaked = s.store.leaked := by
  cases s.step_changes e with
  | none htaken hleaked => exact hleaked
  | taken x hopen hdata hview htaken hleaked => exact hleaked
  | moved i x y hget hopen hmoves hleak htaken hleaked =>
    rw [hleaked, hleak, h]
    rfl
  | aged f hmoves htaken hleaked => exact hleaked

/-- Where nothing leaks, nothing is counted. -/
theorem leaked_run {es : List Event} (h : ∀ e ∈ es, e.isLeak = false) : (s.run es).store.leaked = s.store.leaked := by
  induction es generalizing s with
  | nil => rfl
  | cons e es ih =>
    obtain ⟨he, hes⟩ := List.forall_mem_cons.1 h
    exact (ih hes).trans (leaked_step he)

/-! ## What each step keeps -/

/-- Each snapshot shows the data of the time when it was taken, and those that leaked have been counted. -/
structure Accounted (s : AtomicSession) : Prop where
  views : ∀ x ∈ s.taken, x.snapshot.transaction.view = .ofStore x.data
  leaked : s.store.leaked = s.taken.countP (·.custody.isLeak)

theorem accounted_begin (database : Database) (config : AtomicConfig) : (begin database config).Accounted where
  views _ hx := absurd hx List.not_mem_nil
  leaked := rfl

/-- What shows in a snapshot never changes, and each leak is counted once. -/
theorem Accounted.step (h : s.Accounted) (e : Event) : (s.step e).Accounted := by
  cases s.step_changes e with
  | none htaken hleaked => exact ⟨htaken ▸ h.views, by rw [hleaked, htaken, h.leaked]⟩
  | taken x hopen hdata hview htaken hleaked =>
    refine ⟨?_, ?_⟩
    · rw [htaken]
      intro y hy
      rcases List.mem_append.1 hy with hy | hy
      · exact h.views y hy
      · exact List.mem_singleton.1 hy ▸ hview
    · rw [hleaked, htaken, h.leaked, List.countP_append, List.countP_singleton, Custody.isLeak_of_isOpen hopen]
      rfl
  | moved i x y hget hopen hmoves hleak htaken hleaked =>
    have hx : x.snapshot.transaction.view = .ofStore x.data := h.views x (List.mem_of_getElem? hget)
    refine ⟨?_, ?_⟩
    · rw [htaken]
      intro z hz
      rcases List.mem_or_eq_of_mem_set hz with hz | rfl
      · exact h.views z hz
      · rw [hmoves.view, hmoves.data, hx]
    · obtain ⟨hi, rfl⟩ := List.getElem?_eq_some_iff.1 hget
      rw [hleaked, htaken, h.leaked, List.countP_set hi, Custody.isLeak_of_isOpen hopen]
      rfl
  | aged f hmoves htaken hleaked =>
    refine ⟨?_, ?_⟩
    · rw [htaken]
      intro y hy
      obtain ⟨x, hx, rfl⟩ := List.mem_map.1 hy
      rw [(hmoves x).1.view, (hmoves x).1.data, h.views x hx]
    · rw [hleaked, htaken, h.leaked, List.countP_map]
      exact List.countP_congr fun x _ => by rw [Function.comp_apply, (hmoves x).2]

theorem Accounted.run (h : s.Accounted) (es : List Event) : (s.run es).Accounted := by
  induction es generalizing s with
  | nil => exact h
  | cons e es ih => exact ih (h.step e)

/-! ## Without the snapshots -/

def forget (s : AtomicSession) : AtomicSession := { s with store := { s.store with leaked := 0 }, taken := [] }

theorem forget_take (s : AtomicSession) (custody : Custody) : (s.take custody).forget = s.forget := by
  rcases s.take_cases custody with hsame | ⟨x, -, -, -, htaken⟩
  · rw [hsame]
  · rw [htaken]
    rfl

theorem forget_release (s : AtomicSession) (i : Nat) (custody : Custody) (how : Release) :
    (s.release i custody how).forget = s.forget := by
  rcases s.release_cases i custody how with hsame | ⟨x, -, -, hreleased⟩
  · rw [hsame]
  · rw [hreleased]
    rfl

/-- What is done with a snapshot changes nothing else. -/
theorem forget_step_onSnapshot (s : AtomicSession) {e : Event} (h : e.onSnapshot = true) :
    (s.step e).forget = s.forget := by
  cases e with
  | openSnapshot => exact s.forget_take .held
  | releaseSnapshot i how => exact s.forget_release i .held how
  | read i q =>
    rw [step]
    cases s.find? i Custody.isOpen <;> rfl
  | beginUse => exact s.forget_take .lent
  | endUse i panicked => exact s.forget_release i .lent _
  | _ => cases h

/-- Whatever else is done comes to the same without the snapshots. -/
theorem forget_step_other (s : AtomicSession) {e : Event} (h : e.onSnapshot = false) :
    (s.step e).forget = s.forget.step e := by
  have hwork (action : StoreM (Transaction × Database) Answer) :
      (s.step (.transact action)).forget = s.forget.step (.transact action) := by
    obtain ⟨result, db, hrun⟩ := AtomicStore.inTransaction_leaked action s.store
    have hhere : AtomicStore.inTransaction action s.store = _ := hrun s.store.leaked
    have hthere : AtomicStore.inTransaction action s.forget.store = _ := hrun 0
    rw [step, step, hhere, hthere]
    rfl
  cases e with
  | start => rfl
  | stop => rfl
  | configure config =>
    rw [step, step, setConfig_apply, setConfig_apply]
    cases hstarted : s.store.started <;> simp [forget, hstarted]
  | request r =>
    have hperform : ∀ s : AtomicSession, s.step (.request r) = s.step (.transact (StoreM.onFst r.run)) := by
      intro s
      rw [step, step, AtomicStore.perform_eq]
    rw [hperform, hperform]
    exact hwork _
  | transact action => exact hwork action
  | outside e => rfl
  | _ => cases h

/-- Without its snapshots a session is where it comes to without them. -/
theorem forget_run (s : AtomicSession) (es : List Event) :
    (s.run es).forget = s.forget.run (es.filter (!·.onSnapshot)) := by
  induction es generalizing s with
  | nil => rfl
  | cons e es ih =>
    refine (ih (s.step e)).trans ?_
    cases he : e.onSnapshot with
    | true => rw [s.forget_step_onSnapshot he, List.filter_cons_of_neg (by simp [he])]
    | false =>
      rw [s.forget_step_other he, List.filter_cons_of_pos (by simp [he])]
      rfl

/-! ## Uses -/

/-- The use of a snapshot in a session: some events happen, and then the use ends, as it may in what has become of the
session. What a panic in the use unwinds past is dropped by events of the use. -/
def during {α : Type} (s : AtomicSession) (body : List Event) (ending : AtomicSession → Completion α) :
    StateM (Snapshot Transaction × AtomicStore Database) (Completion α) := fun (snapshot, store) =>
  let inside := run { s with store, taken := s.taken ++ [⟨snapshot, .lent, store.db.data⟩] } body
  (ending inside, ((inside.taken[s.taken.length]?.map (·.snapshot)).getD snapshot, inside.store))

/-- However a use ends, the store is left as it has become in the use: closed or dropped, its snapshot is no leak. -/
theorem withSnapshot_apply {α : Type} {use : StateM (Snapshot Transaction × AtomicStore Database) (Completion α)}
    {store store' : AtomicStore Database} {opened given : Snapshot Transaction} {result : Completion α}
    (hopened : (AtomicStore.openSnapshot : StoreM (AtomicStore Database) (Snapshot Transaction)) store =
      (.ok opened, store)) (hused : use (opened, store) = (result, (given, store'))) :
    AtomicStore.withSnapshot use store = (result, store') := by
  have hget : (get : StateM (AtomicStore Database) (AtomicStore Database)) store = (store, store) := rfl
  refine (StoreM.stateM_bind hopened).trans ((StoreM.stateM_bind hget).trans ?_)
  rw [hused]
  cases result <;> rfl

theorem store_endUse (s : AtomicSession) (i : Nat) (panicked : Bool) :
    (s.step (.endUse i panicked)).store = s.store := by
  rw [step]
  rcases s.release_cases i .lent (if panicked then .dropped true else .closed) with hsame | ⟨x, -, -, hreleased⟩
  · rw [hsame]
  · rw [hreleased]
    cases panicked <;> rfl

/-- At the end of a use its snapshot is given up, and that is no leak. -/
theorem endUse_of_lent {i : Nat} {x y : Taken} (hget : s.taken[i]? = some y) (hx : x.custody = .lent) (h : Moves x y)
    (panicked : Bool) : ∃ z, (s.step (.endUse i panicked)).taken[i]? = some z ∧ z.custody.isOpen = false ∧
      z.custody.isLeak = false := by
  have hy : y.custody = .lent ∨ ∃ how, y.custody = .released how ∧ how.isLeak = false := by
    rcases h.custody with hsame | ⟨-, how, hreleased, hlent⟩
    · exact .inl (hsame.trans hx)
    · exact .inr ⟨how, hreleased, hlent hx⟩
  rcases hy with hy | ⟨how, hy, hleak⟩
  · have hfound : s.find? i (· = .lent) = some y := find?_eq_some_iff.2 ⟨hget, decide_eq_true hy⟩
    rw [step, release, hfound]
    refine ⟨_, List.getElem?_set_self (List.getElem?_eq_some_iff.1 hget).1, rfl, ?_⟩
    cases panicked <;> rfl
  · -- it has been given up already, and stays so
    obtain ⟨z, hz, hmoves⟩ := step_moves hget (.endUse i panicked)
    have hsame : z.custody = y.custody := hmoves.custody.resolve_right fun hmoved => by
      rw [hy] at hmoved
      cases hmoved.1
    exact ⟨z, hz, by rw [hsame, hy]; rfl, by rw [hsame, hy]; exact hleak⟩

/-- The use of a snapshot is the same as its events between a beginning and an end, and leaks nothing itself. -/
theorem withSnapshot_during {α : Type} (s : AtomicSession) (body : List Event)
    (ending : AtomicSession → Completion α) :
    let inside := s.run (.beginUse :: body)
    let after := inside.step (.endUse s.taken.length (ending inside).isPanicked)
    (s.step .beginUse = s ∧ ∃ why, AtomicStore.withSnapshot (s.during body ending) s.store = (.failed why, s.store)) ∨
    (s.step .beginUse).store = s.store ∧ after.store = inside.store ∧
      AtomicStore.withSnapshot (s.during body ending) s.store = (ending inside, after.store) ∧
      ((∀ e ∈ body, e.isLeak = false) → after.store.leaked = s.store.leaked) ∧
      ∃ x, after.taken[s.taken.length]? = some x ∧ x.custody.isOpen = false ∧ x.custody.isLeak = false := by
  intro inside after
  have hafter : after.store = inside.store := inside.store_endUse _ _
  rcases openSnapshot_cases s.store with ⟨why, hrefused⟩ | hopened
  · refine .inl ⟨?_, why, ?_⟩
    · rw [step, take, hrefused]
    · exact StoreM.stateM_bind hrefused
  · generalize (Transaction.start s.store.db.version s.store.db.data).setLimit s.store.config.snapshotLimit = t
      at hopened
    have hbegin : s.step .beginUse = { s with taken := s.taken ++ [⟨⟨t⟩, .lent, s.store.db.data⟩] } := by
      rw [step, take, hopened]
    have hinside : inside = run { s with taken := s.taken ++ [⟨⟨t⟩, .lent, s.store.db.data⟩] } body := by
      rw [← hbegin]
      rfl
    have hlent : (s.step .beginUse).taken[s.taken.length]? = some ⟨⟨t⟩, .lent, s.store.db.data⟩ := by
      rw [hbegin]
      exact List.getElem?_concat_length
    obtain ⟨x, hx, hmoves⟩ := run_moves hlent body
    have hused : s.during body ending (⟨t⟩, s.store) =
        (ending inside, ((inside.taken[s.taken.length]?.map (·.snapshot)).getD ⟨t⟩, inside.store)) := by
      rw [hinside]
      rfl
    refine .inr ⟨by rw [hbegin], hafter, ?_, fun hbody => ?_, endUse_of_lent hx rfl hmoves _⟩
    · rw [hafter]
      exact withSnapshot_apply hopened hused
    · rw [hafter]
      exact leaked_run (List.forall_mem_cons.2 ⟨rfl, hbody⟩)

/-- Two snapshots are held over a request and show what was there before. A use of a third drops the one of them and
panics, which drops the other. One leak is left. -/
example :
    let s := (begin (Database.create 0) ⟨0, 3⟩).run [.start, .request (.call (.write (.put [1] [5]))), .openSnapshot,
      .openSnapshot, .request (.call (.write (.put [1] [6]))), .outside (.elapse 3)]
    let body : List Event := [.releaseSnapshot 1 (.dropped false), .releaseSnapshot 0 (.dropped true)]
    let used := AtomicStore.withSnapshot (s.during body fun _ => (.panicked : Completion Answer)) s.store
    s.store.db.data.toList = [([1], [6])] ∧
      s.taken.map (fun x => ((Query.get [1]).run x.snapshot).1.toOption) =
        [some (.value (some [5])), some (.value (some [5]))] ∧
      used.1 = .panicked ∧ used.2.leaked = 1 := by
  dsimp only
  decide +kernel

end AtomicSession

end Keyspace
