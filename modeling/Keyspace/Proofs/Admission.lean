import Keyspace.Proofs.Archive
import Keyspace.Proofs.Differences

/-!
How it ends to open a transaction against a schema. The recorded versions alone decide it: whether the version is
there with a compatible schema, whether a new one is allowed, and whether it agrees with all the others. Nothing
of this shows in the database before the transaction is committed.
-/
namespace Keyspace

namespace Catalog

open Schema (Model StorageId Registry SchemaError)
open Index (IndexInfo)

/-! ## The indexes of a schema -/

/-- A well-formed index can be looked up in its object type. -/
theorem exists_resolve {t : Schema.ObjectType} (hkeys : ∀ e ∈ t.fields.toList, e.1 = e.2.id)
    {i : Schema.CompositeIndex} (h : i.WellFormed t) : ∃ info, IndexInfo.resolve t i = .ok info := by
  have hfields : ∀ id ∈ i.fields, ∃ info, IndexInfo.resolveField t i id = .ok info := by
    intro id hid
    obtain ⟨f, hf⟩ := (Schema.ObjectType.field?_eq_simple_iff hkeys).2 (h.fields id hid)
    exact ⟨.ofField f, by rw [IndexInfo.resolveField, hf]; rfl⟩
  obtain ⟨infos, hinfos⟩ := exists_mapM_eq_ok hfields
  have harity : ¬(i.fields.length < Schema.minIndexFields ∨ Schema.maxIndexFields < i.fields.length) :=
    not_or.2 ⟨Nat.not_lt.2 h.arity.1, Nat.not_lt.2 h.arity.2⟩
  exact ⟨_, by rw [IndexInfo.resolve]; dsimp only; rw [if_neg harity, hinfos]; rfl⟩

/-- The indexes of a well-formed schema are all resolved. -/
theorem exists_indexInfos {schema : Model} (h : schema.WellFormed) : ∃ infos, indexInfos schema = .ok infos :=
  exists_foldlM_eq_ok (fun t ht infos => exists_foldlM_eq_ok (fun i hi infos => by
    obtain ⟨info, hinfo⟩ := exists_resolve (h.objectTypes t ht).fieldKeys ((h.objectTypes t ht).indexes i hi)
    exact ⟨infos.insert i.id info, by rw [hinfo]; rfl⟩) infos) _

/-! ## Agreement with the recorded versions -/

/-- Two items of two schemas have one storage ID and do not agree. -/
structure Conflict (schema other : Model) (a b : Schema.Item) : Prop where
  mem_schema : a ∈ schema.items
  mem_other : b ∈ other.items
  id : a.id = b.id
  inconsistent : a.consistent b = false

theorem Conflict.not_consistent {schema other : Model} {a b : Schema.Item} (h : Conflict schema other a b) :
    ¬schema.Consistent other := fun hconsistent => by
  have hab := hconsistent a h.mem_schema b h.mem_other h.id
  rw [h.inconsistent] at hab
  cases hab

/-- A schema that fails the check conflicts with a recorded one. -/
theorem exists_conflict {schema : Model} {versions : Versions} (hschema : schema.validate = .ok ())
    (hvalid : AllValid versions) {why : SchemaError} (h : checkConsistent schema versions = .error why) :
    ∃ w y a b, versions.get? w = some y ∧ Conflict schema y a b ∧
      why = .storageIdConflict a.id b.describe a.describe := by
  obtain ⟨r, hr⟩ := (Model.valid_of_validate hschema).registry
  rw [checkConsistent, hr, ok_bind] at h
  obtain ⟨y, hy, hcheck⟩ := exists_of_forM_eq_error h
  obtain ⟨⟨w, y⟩, hmem, rfl⟩ := List.mem_map.1 hy
  have hw : versions.get? w = some y := SortedMap.mem_toList_iff.1 hmem
  obtain ⟨s, hs⟩ := (Model.valid_of_validate (hvalid w y hw)).registry
  rw [hs, ok_bind] at hcheck
  obtain ⟨a, ha, b, hb, hid, hinconsistent, hwhy⟩ := Registry.exists_conflict hr hs hcheck
  exact ⟨w, y, a, b, hw, ⟨ha, hb, hid, hinconsistent⟩, hwhy⟩

/-! ## The outcome -/

structure Opened (schema : Model) (v : UInt32) (found : Versions) (t : SchemaTransaction Transaction) : Prop where
  indexes : indexInfos schema = .ok t.indexes
  schema : t.schema = schema
  version : t.version = v
  found : ((recorded : CatalogM Transaction Versions) t.transaction).1 = .ok found

def Commits (db : Database) (t : SchemaTransaction Transaction) (versions : Versions) : Prop :=
  ∃ db', (commit t : CatalogM Database Unit) db = (.ok (), db') ∧
    (Catalog.versions : CatalogM Database Versions) db' = (.ok versions, db')

structure Decided (db : Database) (versions : Versions) (schema : Model) (v : UInt32) (allowNew : Bool)
    (result : Except CatalogError (SchemaTransaction Transaction)) : Prop where
  /-- The version is recorded with a schema that is compatible. -/
  known : ∀ x, versions.get? v = some x → x.compatible schema = true →
    ∃ t, result = .ok t ∧ Opened schema v versions t
  mismatch : ∀ x, versions.get? v = some x → x.compatible schema = false →
    schema.diff x ≠ [] ∧ result = .error (.mismatch v (schema.diff x))
  unknown : versions.get? v = none → allowNew = false → result = .error (.unknownVersion v)
  conflict : versions.get? v = none → allowNew = true →
    (∃ w y, versions.get? w = some y ∧ ¬schema.Consistent y) →
      ∃ w y a b, versions.get? w = some y ∧ Conflict schema y a b ∧
        result = .error (.schema (.storageIdConflict a.id b.describe a.describe))
  /-- The version is new and may be recorded. -/
  fresh : versions.get? v = none → allowNew = true → (∀ w y, versions.get? w = some y → schema.Consistent y) →
    ∃ t, result = .ok t ∧ Opened schema v (versions.insert v schema) t ∧ Commits db t (versions.insert v schema)

/-- A schema that is not valid is refused by any database, before anything is done there. -/
theorem enter_invalid {δ τ : Type} [TransactionalDatabase δ τ] [KeyValueStore τ] {schema : Model} {why : SchemaError}
    (h : schema.validate = .error why) (v : UInt32) (allowNew : Bool) (d : δ) :
    (enter schema v allowNew : CatalogM δ (SchemaTransaction τ)) d = (.error (.schema why), d) :=
  StoreM.bind_error (by rw [liftSchema_apply, h]; rfl)

/-- What comes of opening a transaction, where one result is for a version that is known and the other for one that
is recorded now. -/
def outcome (versions : Versions) (schema : Model) (v : UInt32) (allowNew : Bool)
    (known fresh : SchemaTransaction Transaction) : Except CatalogError (SchemaTransaction Transaction) :=
  match versions.get? v with
  | some x => if x.compatible schema then .ok known else .error (.mismatch v (schema.diff x))
  | none =>
    if allowNew then
      match checkConsistent schema versions with
      | .ok () => .ok fresh
      | .error why => .error (.schema why)
    else .error (.unknownVersion v)

/-- A new transaction may still commit, whatever it has put down for the versions there. -/
theorem commits_of_current {db : Database} (hready : db.Ready) {t : SchemaTransaction Transaction}
    (hversion : t.transaction.startVersion = db.version) (hopen : t.transaction.expired? = none) {found : Versions}
    (hholds : Holds (t.transaction.writes.apply db.data) found) (hvalid : AllValid found) : Commits db t found := by
  obtain ⟨db', hcommit, hdata, hready'⟩ := hready.commit hversion hopen
  refine ⟨db', ?_, versions_apply hready'.started (hdata ▸ hholds) hvalid⟩
  rw [commit_apply, hcommit]
  rfl

section

variable {db : Database} {versions : Versions} (hready : db.Ready) (hholds : Holds db.data versions)
  (hvalid : AllValid versions)

include hready hholds hvalid

/-- The results are a transaction that has written nothing and one that has written its own version. -/
theorem enter_outcome {schema : Model} (hschema : schema.validate = .ok ()) (version : UInt32) (allowNew : Bool) :
    ∃ known fresh,
      (enter schema version allowNew : CatalogM Database (SchemaTransaction Transaction)) db =
        (outcome versions schema (actualVersion schema version) allowNew known fresh, db) ∧
      Opened schema (actualVersion schema version) versions known ∧
      Opened schema (actualVersion schema version) (versions.insert (actualVersion schema version) schema) fresh ∧
      Commits db fresh (versions.insert (actualVersion schema version) schema) := by
  obtain ⟨indexes, hindexes⟩ := exists_indexInfos (Model.wellFormed_of_validate hschema)
  obtain ⟨v, hv⟩ : ∃ v, actualVersion schema version = v := ⟨_, rfl⟩
  obtain ⟨reads, -, happly⟩ := apply_start hholds hvalid db.version schema v allowNew
  let known : Transaction := { Transaction.start db.version db.data with reads }
  let fresh : Transaction := { known with
    view := known.view.put (versionKey v) schema.toBytes
    writes := known.writes.put (versionKey v) schema.toBytes }
  -- A transaction finds what it shows, so one that has put its version finds this beside the others.
  have hshows : known.Shows db.data := Transaction.shows_start db.version db.data
  have hshows' : fresh.Shows (db.data.insert (versionKey v) schema.toBytes) := fun k => by
    rw [Overlay.get?_put, hshows, SortedMap.get?_insert]
  have hholds' : Holds (db.data.insert (versionKey v) schema.toBytes) (versions.insert v schema) :=
    hholds.insert v schema
  have hvalid' := hvalid.insert hschema v
  obtain ⟨_, -, hfound⟩ := recorded_transaction (t := known) rfl hshows hholds hvalid
  obtain ⟨_, -, hfound'⟩ := recorded_transaction (t := fresh) rfl hshows' hholds' hvalid'
  have hwrites : fresh.writes.apply db.data = db.data.insert (versionKey v) schema.toBytes :=
    Batch.apply_put .empty db.data (versionKey v) schema.toBytes
  rw [enter_apply hready.started hschema hindexes, hv, happly]
  refine ⟨⟨known, schema, v, indexes⟩, ⟨fresh, schema, v, indexes⟩, ?_,
    ⟨hindexes, rfl, rfl, congrArg Prod.fst hfound⟩, ⟨hindexes, rfl, rfl, congrArg Prod.fst hfound'⟩,
    commits_of_current hready rfl rfl (hwrites ▸ hholds') hvalid'⟩
  rw [outcome]
  cases versions.get? v with
  | some x =>
    dsimp only
    cases x.compatible schema <;> rfl
  | none =>
    cases allowNew with
    | false => rfl
    | true =>
      simp only [if_true]
      cases checkConsistent schema versions <;> rfl

/-- Opening a transaction leaves the database alone and ends as the recorded versions decide. -/
theorem enter_decided {schema : Model} (hschema : schema.validate = .ok ()) (version : UInt32) (allowNew : Bool) :
    ∃ result,
      (enter schema version allowNew : CatalogM Database (SchemaTransaction Transaction)) db = (result, db) ∧
        Decided db versions schema (actualVersion schema version) allowNew result := by
  obtain ⟨known, fresh, henter, hknown, hfresh, hcommits⟩ := enter_outcome hready hholds hvalid hschema version allowNew
  refine ⟨_, henter, ?_, ?_, ?_, ?_, ?_⟩
  · intro x hx hcompatible
    exact ⟨known, by simp only [outcome, hx, hcompatible, if_true], hknown⟩
  · intro x hx hcompatible
    have hdiff : schema.diff x ≠ [] := Model.diff_ne_nil (Model.wellFormed_of_validate hschema)
      (Model.wellFormed_of_validate (hvalid _ x hx)) hcompatible
    exact ⟨hdiff, by simp only [outcome, hx, hcompatible, Bool.false_eq_true, if_false]⟩
  · intro hnone hnot
    simp only [outcome, hnone, hnot, Bool.false_eq_true, if_false]
  · rintro hnone hallow ⟨w, y, hw, hnot⟩
    cases hcheck : checkConsistent schema versions with
    | ok => exact absurd (consistent_of_checkConsistent hcheck hw) hnot
    | error why =>
      obtain ⟨w, y, a, b, hw, hconflict, rfl⟩ := exists_conflict hschema hvalid hcheck
      exact ⟨w, y, a, b, hw, hconflict, by simp only [outcome, hnone, hallow, hcheck, if_true]⟩
  · intro hnone hallow hall
    cases hcheck : checkConsistent schema versions with
    | ok => exact ⟨fresh, by simp only [outcome, hnone, hallow, hcheck, if_true], hfresh, hcommits⟩
    | error why =>
      obtain ⟨w, y, a, b, hw, hconflict, -⟩ := exists_conflict hschema hvalid hcheck
      exact absurd (hall w y hw) hconflict.not_consistent

end

end Catalog

/-! ## A transaction that does not commit -/

namespace Archive

open Schema (Model)
open Catalog (Versions versionPrefix actualVersion)

/-- Two archives that differ in the binding of one number at most. -/
structure Apart (i : Nat) (s s' : Archive) : Prop where
  database : s.database = s'.database
  committed : s.committed = s'.committed
  length : s.bindings.length = s'.bindings.length
  bindings : ∀ j, j ≠ i → s.bindings[j]? = s'.bindings[j]?

namespace Apart

variable {i : Nat} {s s' s'' : Archive}

theorem refl (i : Nat) (s : Archive) : Apart i s s := ⟨rfl, rfl, rfl, fun _ _ => rfl⟩

theorem symm (h : Apart i s s') : Apart i s' s :=
  ⟨h.database.symm, h.committed.symm, h.length.symm, fun j hj => (h.bindings j hj).symm⟩

theorem trans (h : Apart i s s') (h' : Apart i s' s'') : Apart i s s'' :=
  ⟨h.database.trans h'.database, h.committed.trans h'.committed, h.length.trans h'.length,
    fun j hj => (h.bindings j hj).trans (h'.bindings j hj)⟩

theorem running? (h : Apart i s s') {j : Nat} (hj : j ≠ i) : s.running? j = s'.running? j := by
  rw [Archive.running?, Archive.running?, h.bindings j hj]

/-- The same happens to a binding of both and to the rest. -/
theorem set (h : Apart i s s') (database : Database) (committed : List Binding) (j : Nat) (x : Binding) :
    Apart i ⟨database, s.bindings.set j x, committed⟩ ⟨database, s'.bindings.set j x, committed⟩ := by
  refine ⟨rfl, rfl, by simp [h.length], fun k hk => ?_⟩
  dsimp only
  rw [List.getElem?_set, List.getElem?_set, h.length, h.bindings k hk]

theorem append (h : Apart i s s') (database : Database) (committed : List Binding) (x : Binding) :
    Apart i ⟨database, s.bindings ++ [x], committed⟩ ⟨database, s'.bindings ++ [x], committed⟩ := by
  refine ⟨rfl, rfl, by simp [h.length], fun k hk => ?_⟩
  dsimp only
  rw [List.getElem?_append, List.getElem?_append, h.length, h.bindings k hk]

/-- The same happens to what is no binding. -/
theorem rest (h : Apart i s s') (database : Database) (committed : List Binding) :
    Apart i ⟨database, s.bindings, committed⟩ ⟨database, s'.bindings, committed⟩ :=
  ⟨rfl, rfl, h.length, h.bindings⟩

/-- The binding of the number itself may be changed alone. -/
theorem update_left (i : Nat) (s : Archive) (f : Binding → Binding) : Apart i (s.update i f) s := by
  unfold Archive.update
  split
  · next x hx =>
    refine ⟨rfl, rfl, List.length_set, fun j hj => ?_⟩
    rw [List.getElem?_set_ne (Ne.symm hj)]
  · exact refl i s

theorem update (h : Apart i s s') (j : Nat) (f : Binding → Binding) : Apart i (s.update j f) (s'.update j f) := by
  by_cases hj : j = i
  · subst hj
    exact (update_left j s f).trans (h.trans (update_left j s' f).symm)
  · unfold Archive.update
    rw [h.running? hj, h.database, h.committed]
    cases s'.running? j with
    | some x => exact h.set _ _ j (f x)
    | none => exact h

/-- A rolled back transaction leaves nothing behind. -/
theorem step_rollback (s : Archive) (j : Nat) :
    s.step (.rollback j) = s.update j fun x => { x with running := false } := by
  rw [Archive.step, Archive.update]
  split <;> rfl

/-- Where the archives differ in one binding alone, they go on so, unless this binding commits. -/
theorem step (h : Apart i s s') {e : Event} (he : e ≠ .commit i) : Apart i (s.step e) (s'.step e) := by
  cases e with
  | enter schema version allowNew =>
    rw [Archive.step, Archive.step, h.database, h.committed]
    obtain ⟨result, database⟩ := Catalog.enter schema version allowNew s'.database
    cases result with
    | ok t => exact h.append _ _ _
    | error why => exact h.rest _ _
  | insert j id columns values object => exact h.update j _
  | remove j id columns values object => exact h.update j _
  | call j c => exact h.update j _
  | commit j =>
    have hj : j ≠ i := fun heq => he (by rw [heq])
    rw [Archive.step, Archive.step, h.running? hj, h.database, h.committed]
    cases s'.running? j with
    | none => exact h
    | some x =>
      dsimp only
      obtain ⟨result, database⟩ := Catalog.commit x.bound s'.database
      cases result with
      | ok => exact h.set _ _ _ _
      | error why => exact h.set _ _ _ _
  | rollback j =>
    rw [step_rollback, step_rollback]
    exact h.update j _
  | versions =>
    rw [Archive.step, Archive.step, h.database, h.committed]
    exact h.rest _ _
  | other t =>
    rw [Archive.step, Archive.step, h.database, h.committed]
    exact h.rest _ _

theorem run (h : Apart i s s') (es : List Event) (hes : .commit i ∉ es) : Apart i (s.run es) (s'.run es) := by
  induction es generalizing s s' with
  | nil => exact h
  | cons e es ih =>
    rw [List.mem_cons, not_or] at hes
    exact ih (h.step (Ne.symm hes.1)) hes.2

end Apart

/-! ## The whole -/

theorem Sound.ready {past : Nat → Store} {s : Archive} (h : s.Sound past) : s.database.Ready :=
  ⟨h.started, h.recalls.consecutive⟩

/-- The recorded versions decide. Take a started database, whatever happened on it before, with no key under the
prefix of versions, let any events happen then, of which only those of schemas write such keys, and open a
transaction against any version of any schema. A schema that is not valid fails with the reason alone, on whatever
database. Otherwise the database is left as it is, and the result is decided by the versions recorded in it. A
version that is recorded now is seen inside its transaction, and by others once this commits; until then the
database fares as if the transaction had been rolled back at once. -/
theorem run_decides (maxHistory : Nat) (before : List Keyspace.Event)
    (hstarted : ((Server.begin maxHistory).run before).database.started = true)
    (hnone : ∀ k, versionPrefix <+: k → ((Server.begin maxHistory).run before).database.data.get? k = none)
    (es : List Event) (hspares : ∀ e ∈ es, e.Spares) (schema : Model) (version : UInt32) (allowNew : Bool) :
    let s := (begin ((Server.begin maxHistory).run before).database).run es
    let versions := recorded s.committed
    let opened := s.step (.enter schema version allowNew)
    let i := s.bindings.length
    (Catalog.versions : Catalog.CatalogM Database Versions) s.database = (.ok versions, s.database) ∧
    (∀ why, schema.validate = .error why →
      ∀ (δ τ : Type) [TransactionalDatabase δ τ] [KeyValueStore τ] (d : δ),
        (Catalog.enter schema version allowNew : Catalog.CatalogM δ (SchemaTransaction τ)) d =
          (.error (.schema why), d)) ∧
    (schema.validate = .ok () → ∃ result,
      (Catalog.enter schema version allowNew : Catalog.CatalogM Database (SchemaTransaction Transaction)) s.database =
        (result, s.database) ∧
      Catalog.Decided s.database versions schema (actualVersion schema version) allowNew result) ∧
    ∀ later, .commit i ∉ later → (opened.run later).database = ((opened.step (.rollback i)).run later).database := by
  intro s versions opened i
  have hbefore : ((Server.begin maxHistory).run before).Sound := (Server.sound_begin maxHistory).run before
  obtain ⟨past, h, -⟩ := (sound_begin hbefore.recalls hstarted hnone).run es hspares
  refine ⟨Catalog.versions_apply h.started h.holds h.coherent.valid, ?_, ?_, ?_⟩
  · intro why hwhy δ τ _ _ d
    exact Catalog.enter_invalid hwhy version allowNew d
  · exact fun hschema => Catalog.enter_decided h.ready h.holds h.coherent.valid hschema version allowNew
  · intro later hlater
    have hback : Apart i opened (opened.step (.rollback i)) := by
      rw [Apart.step_rollback]
      exact (Apart.update_left i opened _).symm
    exact (hback.run later hlater).database

/-- A schema without a field is not let into a version that has it, and becomes a version of its own. -/
theorem run_decides_evolution :
    let fields := (SortedMap.empty.insert 11 (.simple ⟨"name", 11, false, .value "string" 0⟩)).insert 12
      (.simple ⟨"age", 12, false, .value "long" 0⟩)
    let person : Schema.ObjectType :=
      ⟨"Person", 10, fields, SortedMap.empty.insert 13 ⟨"byAgeName", 13, [12, 11]⟩⟩
    let schema : Model := ⟨SortedMap.empty.insert 10 person⟩
    let reduced : Model := ⟨SortedMap.empty.insert 10 ⟨"Person", 10, fields.erase 12, .empty⟩⟩
    let database := ((Server.begin 2).run [.enter, .call 0 (.write (.put [1] [2])), .commit 0]).database
    let es : List Event := [.enter schema 1 true, .commit 0]
    let s := (begin database).run es
    let versions := recorded s.committed
    database.started = true ∧ (∀ k, versionPrefix <+: k → database.data.get? k = none) ∧ (∀ e ∈ es, e.Spares) ∧
      versions.get? 1 = some schema ∧
      (∃ differences, differences ≠ [] ∧
        (Catalog.enter reduced 1 true : Catalog.CatalogM Database (SchemaTransaction Transaction)) s.database =
          (.error (.mismatch 1 differences), s.database)) ∧
      ∃ t, (Catalog.enter reduced 2 true : Catalog.CatalogM Database (SchemaTransaction Transaction)) s.database =
          (.ok t, s.database) ∧ Catalog.Commits s.database t (versions.insert 2 reduced) := by
  intro fields person schema reduced database es s versions
  have hstarted : database.started = true := rfl
  have hnone : ∀ k, versionPrefix <+: k → database.data.get? k = none := by
    intro k hk
    have hdata : database.data = SortedMap.empty.insert [1] [2] := by decide
    have hother : k ≠ [1] := by
      rintro rfl
      revert hk
      decide
    rw [hdata, SortedMap.get?_insert, if_neg hother]
    rfl
  have hspares : ∀ e ∈ es, e.Spares := by
    simp only [es, List.forall_mem_cons, Event.Spares, true_and]
    exact fun e he => absurd he List.not_mem_nil
  have hversions : versions = SortedMap.empty.insert 1 schema := by decide +kernel
  have hone : versions.get? 1 = some schema := by rw [hversions, SortedMap.get?_insert_self]
  have htwo : versions.get? 2 = none := by rw [hversions]; rfl
  have hvalid : reduced.validate = .ok () := by decide +kernel
  have hconsistent : ∀ w y, versions.get? w = some y → reduced.Consistent y := by
    intro w y hy
    rw [hversions] at hy
    rcases SortedMap.get?_insert_cases hy with ⟨-, rfl⟩ | hy
    · unfold Model.Consistent
      decide +kernel
    · cases hy
  obtain ⟨-, -, hold, -⟩ := run_decides 2 _ hstarted hnone es hspares reduced 1 true
  obtain ⟨-, -, hnew, -⟩ := run_decides 2 _ hstarted hnone es hspares reduced 2 true
  obtain ⟨result, henter, hdecided⟩ := hold hvalid
  obtain ⟨hdiff, rfl⟩ := hdecided.mismatch schema hone (by decide +kernel)
  obtain ⟨result', henter', hdecided'⟩ := hnew hvalid
  obtain ⟨t, rfl, -, hcommits⟩ := hdecided'.fresh htwo rfl hconsistent
  exact ⟨hstarted, hnone, hspares, hone, ⟨_, hdiff, henter⟩, t, henter', hcommits⟩

end Archive

end Keyspace
