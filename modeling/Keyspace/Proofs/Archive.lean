import Keyspace.Proofs.Catalog
import Keyspace.Proofs.Sessions

/-!
Any number of transactions bound to schemas on one database, with their steps in any order. Two of them may be
checked against the same old versions; of these one at most gets to record a version, since each has read the keys
of all versions. So what has been recorded stays and agrees.
-/
namespace Keyspace

open Schema (Model StorageId)
open Index (TypedIndex Values ColumnType ObjectId)

structure Binding where
  bound : SchemaTransaction Transaction
  /-- Its version was recorded in it when it was opened. -/
  records : Bool
  /-- Neither committed nor rolled back yet. -/
  running : Bool

namespace Binding

def call (c : Call) (x : Binding) : Binding :=
  { x with bound := { x.bound with transaction := (c.run x.bound.transaction).2 } }

def onIndex (id : StorageId) (columns : List ColumnType) (action : TypedIndex columns → StoreM Transaction Unit)
    (x : Binding) : Binding :=
  match x.bound.index id columns with
  | .ok i => { x with bound := { x.bound with transaction := (action i x.bound.transaction).2 } }
  | .error _ => x

end Binding

structure Archive where
  database : Database
  bindings : List Binding
  /-- Those whose commit succeeded, in the order of their commits. -/
  committed : List Binding

namespace Archive

/-- The next thing that happens; a binding is named by how many were opened before it. -/
inductive Event where
  | enter (schema : Model) (version : UInt32) (allowNew : Bool)
  | insert (i : Nat) (id : StorageId) (columns : List ColumnType) (values : Values columns) (object : ObjectId)
  | remove (i : Nat) (id : StorageId) (columns : List ColumnType) (values : Values columns) (object : ObjectId)
  | call (i : Nat) (c : Call)
  | commit (i : Nat)
  | rollback (i : Nat)
  | versions
  /-- The commit of a transaction that is bound to no schema. -/
  | other (t : Transaction)

/-- What happens without a schema writes no keys of versions. -/
def Event.Spares : Event → Prop
  | call _ c => ∀ (m : Store) k, Catalog.versionPrefix <+: k → (c.run m).2.get? k = m.get? k
  | other t => ∀ k, Catalog.versionPrefix <+: k → t.writes.written.contains k = false
  | _ => True

def begin (database : Database) : Archive := ⟨database, [], []⟩

def running? (s : Archive) (i : Nat) : Option Binding := s.bindings[i]?.filter (·.running)

/-- Changes the binding of a number, as long as it is running. -/
def update (s : Archive) (i : Nat) (f : Binding → Binding) : Archive :=
  match s.running? i with
  | some x => { s with bindings := s.bindings.set i (f x) }
  | none => s

/-- Takes the step that an event asks for. One that names no running binding does nothing. -/
def step (s : Archive) : Event → Archive
  | .enter schema version allowNew =>
    match Catalog.enter schema version allowNew s.database with
    | (.ok t, database) =>
      { s with database, bindings := s.bindings ++ [⟨t, !t.transaction.writes.isEmpty, true⟩] }
    | (.error _, database) => { s with database }
  | .insert i id columns values object => s.update i (·.onIndex id columns fun index => index.insert values object)
  | .remove i id columns values object => s.update i (·.onIndex id columns fun index => index.remove values object)
  | .call i c => s.update i (·.call c)
  | .commit i =>
    match s.running? i with
    | some x =>
      let bindings := s.bindings.set i { x with running := false }
      match Catalog.commit x.bound s.database with
      | (.ok (), database) => { database, bindings, committed := s.committed ++ [x] }
      | (.error _, database) => { s with database, bindings }
    | none => s
  | .rollback i =>
    match s.running? i with
    | some x =>
      { s with
        database := (Catalog.rollback x.bound s.database).2
        bindings := s.bindings.set i { x with running := false } }
    | none => s
  | .versions => { s with database := ((Catalog.versions : Catalog.CatalogM Database _) s.database).2 }
  | .other t => { s with database := (TransactionalDatabase.commit t s.database).2 }

def run (s : Archive) (events : List Event) : Archive := events.foldl step s

/-- The versions that some bindings recorded, with their schemas. -/
def recorded (xs : List Binding) : Catalog.Versions :=
  (xs.filter (·.records)).foldl (fun versions x => versions.insert x.bound.version x.bound.schema) .empty

end Archive

/-! ## Versions that agree -/

namespace Catalog

/-- Every version is under its number in another map, with the same schema. -/
def Within (old new : Versions) : Prop := ∀ v x, old.get? v = some x → new.get? v = some x

theorem Within.refl (versions : Versions) : Within versions versions := fun _ _ h => h

theorem Within.trans {a b c : Versions} (h : Within a b) (h' : Within b c) : Within a c :=
  fun v x hx => h' v x (h v x hx)

theorem within_insert {versions : Versions} {v : UInt32} (h : versions.get? v = none) (x : Model) :
    Within versions (versions.insert v x) := fun w y hy => by
  have hne : w ≠ v := fun he => by rw [he, h] at hy; cases hy
  rw [SortedMap.get?_insert, if_neg hne, hy]

structure Coherent (versions : Versions) : Prop where
  version : ∀ v x, versions.get? v = some x → v ≠ 0
  valid : AllValid versions
  consistent : ∀ v x w y, versions.get? v = some x → versions.get? w = some y → x.Consistent y

theorem coherent_empty : Coherent .empty := ⟨nofun, nofun, nofun⟩

/-- A valid schema that agrees with all the others may stand beside them. -/
theorem Coherent.insert {versions : Versions} (h : Coherent versions) {v : UInt32} {x : Model} (hv : v ≠ 0)
    (hvalid : x.validate = .ok ()) (hconsistent : ∀ w y, versions.get? w = some y → x.Consistent y) :
    Coherent (versions.insert v x) := by
  refine ⟨?_, ?_, ?_⟩
  · intro w y hy
    rcases SortedMap.get?_insert_cases hy with ⟨rfl, -⟩ | hy
    · exact hv
    · exact h.version w y hy
  · exact h.valid.insert hvalid v
  · intro w y w' y' hy hy'
    rcases SortedMap.get?_insert_cases hy with ⟨-, rfl⟩ | hold <;>
      rcases SortedMap.get?_insert_cases hy' with ⟨-, rfl⟩ | hold'
    · exact Model.consistent_self (Model.valid_of_validate hvalid)
    · exact hconsistent w' y' hold'
    · exact (hconsistent w y hold).symm
    · exact h.consistent w y w' y' hold hold'

end Catalog

/-! ## What each step keeps -/

open Catalog (Versions Holds AllValid Checked Coherent Within versionPrefix versionKey)

/-- The binding has been checked against the versions at its start, which have all been kept. -/
def Binding.Sound (past : Nat → Store) (now : Nat) (kept : Versions) (x : Binding) : Prop :=
  x.bound.transaction.startVersion ≤ now ∧ ∃ seen : Versions,
    Within seen kept ∧ Holds (past x.bound.transaction.startVersion) seen ∧ Checked seen x.records x.bound

/-- The schema is compatible with the one under its version. -/
def Binding.Agrees (versions : Versions) (x : Binding) : Prop :=
  ∃ y, versions.get? x.bound.version = some y ∧ y.compatible x.bound.schema = true

namespace Binding

variable {past past' : Nat → Store} {now now' : Nat} {kept kept' : Versions} {x : Binding}

theorem Sound.mono (h : x.Sound past now kept) (hnow : now ≤ now') (hpast : ∀ v ≤ now, past' v = past v)
    (hkept : Within kept kept') : x.Sound past' now' kept' := by
  obtain ⟨hstart, seen, hwithin, hholds, hchecked⟩ := h
  refine ⟨Nat.le_trans hstart hnow, seen, hwithin.trans hkept, ?_, hchecked⟩
  rw [hpast _ hstart]
  exact hholds

theorem Sound.stop (h : x.Sound past now kept) : Sound past now kept { x with running := false } := h

theorem Sound.call (h : x.Sound past now kept) {c : Call}
    (hc : ∀ (m : Store) k, versionPrefix <+: k → (c.run m).2.get? k = m.get? k) :
    Sound past now kept (x.call c) := by
  obtain ⟨hstart, seen, hwithin, hholds, hchecked⟩ := h
  have hsame : (x.call c).bound.transaction.startVersion = x.bound.transaction.startVersion :=
    (Transaction.run_extends c x.bound.transaction).startVersion
  exact ⟨hsame ▸ hstart, seen, hwithin, hsame ▸ hholds, hchecked.call hc⟩

/-- A binding that has nothing to write records no version. -/
theorem Sound.records_of_isEmpty (h : x.Sound past now kept) (hwrites : x.bound.transaction.writes.isEmpty = true) :
    x.records = false := by
  obtain ⟨-, seen, -, -, hchecked⟩ := h
  have hget := hchecked.writes .empty (versionKey x.bound.version) (Catalog.prefix_versionKey _)
  rw [Batch.apply_of_isEmpty hwrites] at hget
  cases hrecords : x.records with
  | false => rfl
  | true =>
    rw [hrecords, if_pos rfl, SortedMap.get?_insert_self] at hget
    cases hget

/-- Entries of indexes are under other keys than versions. -/
theorem Sound.onIndex (h : x.Sound past now kept) (id : StorageId) {columns : List ColumnType}
    (write : TypedIndex columns → Write) {values : Values columns} {object : ObjectId}
    (hwrite : ∀ i, write i = .put (i.key values object) [] ∨ write i = .remove (i.key values object)) :
    Sound past now kept (x.onIndex id columns fun i => (write i).perform) := by
  have ⟨_, _, _, _, hchecked⟩ := h
  unfold Binding.onIndex
  split
  · next i hi =>
    have hother : ∀ k, versionPrefix <+: k → k ≠ i.key values object := fun k hk he =>
      Catalog.not_prefix_index (hchecked.indexes.le_of_index hi) values object (he ▸ hk)
    have hcall := h.call (c := .write (write i)) fun m k hk => by
      rcases hwrite i with hw | hw <;> rw [hw]
      · rw [Call.run_put_store, SortedMap.get?_insert, if_neg (hother k hk)]
      · rw [Call.run_remove_store, SortedMap.get?_erase, if_neg (hother k hk)]
    rw [Binding.call, Call.run, StoreM.map_apply] at hcall
    exact hcall
  · exact h

end Binding

namespace Archive

variable {past : Nat → Store} {s : Archive}

theorem recorded_append (xs : List Binding) (x : Binding) :
    recorded (xs ++ [x]) =
      if x.records then (recorded xs).insert x.bound.version x.bound.schema else recorded xs := by
  cases h : x.records <;> simp [recorded, h]

/-- The database holds the recorded versions, and all bindings are accounted for by them. -/
structure Sound (past : Nat → Store) (s : Archive) : Prop where
  recalls : s.database.Recalls past
  started : s.database.started = true
  holds : Holds s.database.data (recorded s.committed)
  coherent : Coherent (recorded s.committed)
  bindings : ∀ x ∈ s.bindings, x.Sound past s.database.version (recorded s.committed)
  committed : ∀ x ∈ s.committed, x.Agrees (recorded s.committed)

theorem mem_of_running? {i : Nat} {x : Binding} (hx : s.running? i = some x) : x ∈ s.bindings := by
  rw [running?, Option.filter_eq_some_iff] at hx
  exact List.mem_of_getElem? hx.1

theorem within_update (s : Archive) (i : Nat) (f : Binding → Binding) :
    Within (recorded s.committed) (recorded (s.update i f).committed) := by
  unfold Archive.update
  split
  · exact .refl _
  · exact .refl _

/-- Replacing a binding by a sound one keeps the rest. -/
theorem Sound.set (h : s.Sound past) (i : Nat) {x : Binding}
    (hx : x.Sound past s.database.version (recorded s.committed)) :
    Sound past { s with bindings := s.bindings.set i x } where
  recalls := h.recalls
  started := h.started
  holds := h.holds
  coherent := h.coherent
  committed := h.committed
  bindings y hy := by
    rcases List.mem_or_eq_of_mem_set hy with hy | rfl
    · exact h.bindings y hy
    · exact hx

theorem Sound.update (h : s.Sound past) (i : Nat) {f : Binding → Binding}
    (hf : ∀ x, x.Sound past s.database.version (recorded s.committed) →
      (f x).Sound past s.database.version (recorded s.committed)) : (s.update i f).Sound past := by
  unfold Archive.update
  split
  · next x hx => exact h.set i (hf x (h.bindings x (mem_of_running? hx)))
  · exact h

/-- A commit that changes the data extends the past. -/
theorem Sound.record (h : s.Sound past) {b : Batch} {xs : List Binding}
    (hholds : Holds (b.apply s.database.data) (recorded xs)) (hcoherent : Coherent (recorded xs))
    (hwithin : Within (recorded s.committed) (recorded xs))
    (hcommitted : ∀ x ∈ xs, x.Agrees (recorded xs)) :
    ∃ past', Sound past' { s with database := s.database.record b, committed := xs } := by
  let past' : Nat → Store := fun v => if v ≤ s.database.version then past v else b.apply s.database.data
  have hold : ∀ v ≤ s.database.version, past' v = past v := fun v hv => if_pos hv
  have hnew : past' (s.database.version + 1) = b.apply s.database.data := if_neg (Nat.not_succ_le_self _)
  exact ⟨past', h.recalls.record hnew hold, h.started, hholds, hcoherent,
    fun x hx => (h.bindings x hx).mono (Nat.le_succ _) hold hwithin, hcommitted⟩

/-- One more commit of a binding that is compatible with what is then recorded. -/
theorem Sound.forall_mem_append (h : s.Sound past) {x : Binding} {versions : Versions}
    (hwithin : Within (recorded s.committed) versions) (hx : x.Agrees versions) :
    ∀ x' ∈ s.committed ++ [x], x'.Agrees versions := by
  intro x' hx'
  rcases List.mem_append.1 hx' with hx' | hx'
  · obtain ⟨y, hy, hcompatible⟩ := h.committed x' hx'
    exact ⟨y, hwithin _ y hy, hcompatible⟩
  · obtain rfl := List.mem_singleton.1 hx'
    exact hx

/-- A commit of a binding that records no version keeps what is recorded. -/
theorem Sound.commit_known (h : s.Sound past) {x : Binding}
    (hx : x.Sound past s.database.version (recorded s.committed)) (hrecords : x.records = false) :
    recorded (s.committed ++ [x]) = recorded s.committed ∧
      ∀ x' ∈ s.committed ++ [x], x'.Agrees (recorded s.committed) := by
  obtain ⟨-, seen, hwithin, -, hchecked⟩ := hx
  obtain ⟨y, hy, hcompatible⟩ := hchecked.known hrecords
  refine ⟨?_, h.forall_mem_append (.refl _) ⟨y, hwithin _ y hy, hcompatible⟩⟩
  rw [recorded_append, hrecords]
  rfl

/-- A binding that records a version commits only if no version has been added since its start; then it adds its
own. -/
theorem Sound.commit_fresh (h : s.Sound past) {x : Binding}
    (hx : x.Sound past s.database.version (recorded s.committed)) (hrecords : x.records = true)
    (hcheck : s.database.checkCommit x.bound.transaction = .ok ())
    (hwrites : x.bound.transaction.writes.isEmpty = false) :
    Checked (recorded s.committed) true x.bound ∧
      recorded (s.committed ++ [x]) = (recorded s.committed).insert x.bound.version x.bound.schema := by
  obtain ⟨hstart, seen, hwithin, hholds, hchecked⟩ := hx
  -- What the binding has read under the prefix is as it was, so the versions it was checked against are all.
  have hsame : Holds s.database.data seen := hholds.congr fun k hk =>
    h.recalls.get?_eq hcheck hwrites hstart (hchecked.reads k hk)
  have hall : seen = recorded s.committed := hsame.unique h.holds
    (fun v y hy => h.coherent.valid v y (hwithin v y hy)) h.coherent.valid
  rw [hall, hrecords] at hchecked
  exact ⟨hchecked, by rw [recorded_append, if_pos hrecords]⟩

/-- What is recorded after a commit that changes the data. -/
theorem Sound.commit_record (h : s.Sound past) {x : Binding}
    (hx : x.Sound past s.database.version (recorded s.committed))
    (hcheck : s.database.checkCommit x.bound.transaction = .ok ())
    (hwrites : x.bound.transaction.writes.isEmpty = false) :
    Holds (x.bound.transaction.writes.apply s.database.data) (recorded (s.committed ++ [x])) ∧
      Coherent (recorded (s.committed ++ [x])) ∧
      Within (recorded s.committed) (recorded (s.committed ++ [x])) ∧
      ∀ x' ∈ s.committed ++ [x], x'.Agrees (recorded (s.committed ++ [x])) := by
  cases hrecords : x.records with
  | false =>
    obtain ⟨hsame, hcommitted⟩ := h.commit_known hx hrecords
    obtain ⟨-, seen, -, -, hchecked⟩ := hx
    rw [hsame]
    refine ⟨h.holds.congr ?_, h.coherent, .refl _, hcommitted⟩
    intro k hk
    rw [hchecked.writes _ k hk, hrecords]
    rfl
  | true =>
    obtain ⟨hchecked, hrecorded⟩ := h.commit_fresh hx hrecords hcheck hwrites
    obtain ⟨hnone, hconsistent⟩ := hchecked.fresh rfl
    have hwithin := Catalog.within_insert hnone x.bound.schema
    rw [hrecorded]
    have hagrees : x.Agrees ((recorded s.committed).insert x.bound.version x.bound.schema) :=
      ⟨x.bound.schema, SortedMap.get?_insert_self .., x.bound.schema.compatible_self⟩
    exact ⟨(h.holds.insert x.bound.version x.bound.schema).congr fun k hk => hchecked.writes _ k hk,
      h.coherent.insert hchecked.version hchecked.valid hconsistent, hwithin, h.forall_mem_append hwithin hagrees⟩

/-- Whatever commits is recorded, and nothing that is recorded is lost. -/
theorem Sound.commit (h : s.Sound past) {i : Nat} {x : Binding} (hi : s.running? i = some x) : ∃ past',
    (s.step (.commit i)).Sound past' ∧
      Within (recorded s.committed) (recorded (s.step (.commit i)).committed) := by
  have hx := h.bindings x (mem_of_running? hi)
  have hstop : Sound past { s with bindings := s.bindings.set i { x with running := false } } := h.set i hx.stop
  simp only [Archive.step, hi, Catalog.commit_apply]
  rcases s.database.commit_cases x.bound.transaction with
    ⟨why, hcommit⟩ | ⟨hwrites, hcommit⟩ | ⟨hcheck, hwrites, hcommit⟩
  · rw [hcommit]
    exact ⟨past, hstop, .refl _⟩
  · rw [hcommit]
    obtain ⟨hsame, hcommitted⟩ := h.commit_known hx (hx.records_of_isEmpty hwrites)
    refine ⟨past, ⟨h.recalls, h.started, ?_, ?_, ?_, ?_⟩, ?_⟩
    all_goals dsimp only [Except.mapError]; rw [hsame]
    exacts [h.holds, h.coherent, hstop.bindings, hcommitted, .refl _]
  · rw [hcommit]
    obtain ⟨hholds, hcoherent, hwithin, hcommitted⟩ := h.commit_record hx hcheck hwrites
    obtain ⟨past', hsound⟩ := hstop.record hholds hcoherent hwithin hcommitted
    exact ⟨past', hsound, hwithin⟩

/-- No event without a schema meddles with the versions; so each keeps the account, and what is recorded stays. -/
theorem Sound.step (h : s.Sound past) (e : Event) (he : e.Spares) : ∃ past',
    (s.step e).Sound past' ∧ Within (recorded s.committed) (recorded (s.step e).committed) := by
  cases e with
  | enter schema version allowNew =>
    rw [Archive.step]
    rcases Catalog.enter_cases h.started h.holds h.coherent.valid schema version allowNew with
      ⟨why, henter⟩ | ⟨t, henter, hstart, hchecked⟩
    · rw [henter]
      exact ⟨past, h, .refl _⟩
    · rw [henter]
      refine ⟨past, ⟨h.recalls, h.started, h.holds, h.coherent, ?_, h.committed⟩, .refl _⟩
      intro x hx
      rcases List.mem_append.1 hx with hx | hx
      · exact h.bindings x hx
      · obtain rfl := List.mem_singleton.1 hx
        refine ⟨Nat.le_of_eq hstart, _, .refl _, ?_, hchecked⟩
        rw [hstart, h.recalls.now]
        exact h.holds
  | insert i id columns values object =>
    exact ⟨past, h.update i fun x hx => hx.onIndex id (fun index => .put (index.key values object) [])
      fun _ => .inl rfl, within_update s i _⟩
  | remove i id columns values object =>
    exact ⟨past, h.update i fun x hx => hx.onIndex id (fun index => .remove (index.key values object))
      fun _ => .inr rfl, within_update s i _⟩
  | call i c => exact ⟨past, h.update i fun x hx => hx.call he, within_update s i _⟩
  | commit i =>
    cases hi : s.running? i with
    | some x => exact h.commit hi
    | none =>
      rw [Archive.step, hi]
      exact ⟨past, h, .refl _⟩
  | rollback i =>
    rw [Archive.step]
    cases hi : s.running? i with
    | some x => exact ⟨past, h.set i (h.bindings x (mem_of_running? hi)).stop, .refl _⟩
    | none => exact ⟨past, h, .refl _⟩
  | versions =>
    rw [Archive.step, Catalog.versions_apply h.started h.holds h.coherent.valid]
    exact ⟨past, h, .refl _⟩
  | other t =>
    rw [Archive.step]
    rcases s.database.commit_cases t with ⟨why, hcommit⟩ | ⟨-, hcommit⟩ | ⟨-, -, hcommit⟩
    · rw [hcommit]
      exact ⟨past, h, .refl _⟩
    · rw [hcommit]
      exact ⟨past, h, .refl _⟩
    · rw [hcommit]
      obtain ⟨past', hsound⟩ := h.record (h.holds.congr fun k hk => Batch.get?_apply_of_not_written (he k hk) _)
        h.coherent (.refl _) h.committed
      exact ⟨past', hsound, .refl _⟩

theorem Sound.run (h : s.Sound past) (es : List Event) (hes : ∀ e ∈ es, e.Spares) : ∃ past',
    (s.run es).Sound past' ∧ Within (recorded s.committed) (recorded (s.run es).committed) := by
  induction es generalizing s past with
  | nil => exact ⟨past, h, .refl _⟩
  | cons e es ih =>
    obtain ⟨past', hstep, hkept⟩ := h.step e (hes e List.mem_cons_self)
    obtain ⟨past'', hrun, hkept'⟩ := ih hstep fun e he => hes e (List.mem_cons_of_mem _ he)
    exact ⟨past'', hrun, hkept.trans hkept'⟩

theorem sound_begin {database : Database} (hrecalls : database.Recalls past) (hstarted : database.started = true)
    (hnone : ∀ k, versionPrefix <+: k → database.data.get? k = none) : (begin database).Sound past where
  recalls := hrecalls
  started := hstarted
  holds := .empty hnone
  coherent := Catalog.coherent_empty
  bindings _ hx := absurd hx List.not_mem_nil
  committed _ hx := absurd hx List.not_mem_nil

/-- Recorded versions stay sound. Take a started database, whatever happened on it before, with no key under the
prefix of versions, and let any events happen then, of which only those of schemas write such keys. Then the
database gives just the versions that committed transactions recorded; none of them has number zero, all their
schemas are valid, and any two agree on the storage IDs that they share. The schema of each committed transaction is
compatible with the one under its version, and whatever happens later, no version is changed or removed. -/
theorem run_recorded (maxHistory : Nat) (before : List Keyspace.Event)
    (hstarted : ((Server.begin maxHistory).run before).database.started = true)
    (hnone : ∀ k, versionPrefix <+: k → ((Server.begin maxHistory).run before).database.data.get? k = none)
    (es later : List Event) (hspares : ∀ e ∈ es ++ later, e.Spares) :
    let s := (begin ((Server.begin maxHistory).run before).database).run es
    let versions := recorded s.committed
    (Catalog.versions : Catalog.CatalogM Database Versions) s.database = (.ok versions, s.database) ∧
    (∀ v x, versions.get? v = some x → v ≠ 0 ∧ x.validate = .ok ()) ∧
    (∀ v x w y, versions.get? v = some x → versions.get? w = some y →
      ∀ a ∈ x.items, ∀ b ∈ y.items, a.id = b.id → a.consistent b = true) ∧
    (∀ x ∈ s.committed, ∃ y, versions.get? x.bound.version = some y ∧ y.compatible x.bound.schema = true) ∧
    ∀ v x, versions.get? v = some x → (recorded (s.run later).committed).get? v = some x := by
  intro s versions
  have hbefore : ((Server.begin maxHistory).run before).Sound := (Server.sound_begin maxHistory).run before
  obtain ⟨past, h, -⟩ := (sound_begin hbefore.recalls hstarted hnone).run es fun e he =>
    hspares e (List.mem_append_left _ he)
  obtain ⟨-, -, hkept⟩ := h.run later fun e he => hspares e (List.mem_append_right _ he)
  exact ⟨Catalog.versions_apply h.started h.holds h.coherent.valid,
    fun v x hx => ⟨h.coherent.version v x hx, h.coherent.valid v x hx⟩, h.coherent.consistent, h.committed,
    hkept⟩

/-- Two transactions are opened to record a version each; the second one to commit finds that it has not seen the
version of the first, and records its own only when it is opened again. -/
theorem run_recorded_conflict :
    let fields := (SortedMap.empty.insert 11 (.simple ⟨"name", 11, false, .value "string" 0⟩)).insert 12
      (.simple ⟨"age", 12, false, .value "long" 0⟩)
    let person : Schema.ObjectType :=
      ⟨"Person", 10, fields, SortedMap.empty.insert 13 ⟨"byAgeName", 13, [12, 11]⟩⟩
    let schema : Model := ⟨SortedMap.empty.insert 10 person⟩
    let database := ((Server.begin 2).run [.enter, .call 0 (.write (.put [1] [2])), .commit 0]).database
    let es : List Event := [.enter schema 1 true, .enter ⟨.empty⟩ 2 true, .commit 0, .commit 1]
    let later : List Event := [.enter schema 1 false, .insert 2 13 [.long, .string] (7, "a", ()) 5,
      .call 2 (.write (.remove [1])), .commit 2, .enter ⟨.empty⟩ 2 true, .versions, .commit 3]
    let s := (begin database).run es
    database.started = true ∧ (∀ k, versionPrefix <+: k → database.data.get? k = none) ∧
      (∀ e ∈ es ++ later, e.Spares) ∧ (recorded s.committed).keys = [1] ∧
      (recorded (s.run later).committed).keys = [1, 2] ∧
      (Catalog.versions : Catalog.CatalogM Database Versions) s.database =
        (.ok (recorded s.committed), s.database) ∧
      ∀ x, (recorded s.committed).get? 1 = some x → (recorded (s.run later).committed).get? 1 = some x := by
  intro fields person schema database es later s
  have hstarted : database.started = true := rfl
  have hother : ∀ k, versionPrefix <+: k → k ≠ [1] := by
    rintro k hk rfl
    revert hk
    decide
  have hnone : ∀ k, versionPrefix <+: k → database.data.get? k = none := by
    intro k hk
    have hdata : database.data = SortedMap.empty.insert [1] [2] := by decide
    rw [hdata, SortedMap.get?_insert, if_neg (hother k hk)]
    rfl
  have hspares : ∀ e ∈ es ++ later, e.Spares := by
    simp only [es, later, List.cons_append, List.nil_append, List.forall_mem_cons, Event.Spares, true_and]
    refine ⟨?_, fun e he => absurd he List.not_mem_nil⟩
    intro m k hk
    rw [Call.run_remove_store, SortedMap.get?_erase, if_neg (hother k hk)]
  obtain ⟨hversions, -, -, -, hkept⟩ := run_recorded 2 _ hstarted hnone es later hspares
  exact ⟨hstarted, hnone, hspares, by decide +kernel, by decide +kernel, hversions, fun x => hkept 1 x⟩

end Archive

end Keyspace
