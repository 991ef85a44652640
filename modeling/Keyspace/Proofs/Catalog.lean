import Keyspace.Proofs.Database
import Keyspace.Proofs.Versions

/-!
Opening transactions against schemas. What is opened has been checked against the versions that the database
holds, has read the keys of all of them and writes none of them but its own; and no entry of an index of a valid
schema is under these keys.
-/
namespace Keyspace

open Schema (Model StorageId maxStorageId)

namespace Catalog

open Index (TypedIndex Values ColumnType ObjectId IndexInfo)

/-! ## Index keys -/

theorem encode_four (n : Nat) : BigEndian.encode 4 n =
    [UInt8.ofNat (n / 256 / 256 / 256), UInt8.ofNat (n / 256 / 256), UInt8.ofNat (n / 256), UInt8.ofNat n] := rfl

/-- A storage ID in range does not start with the byte that the keys of versions start with. -/
theorem not_prefix_index {columns : List ColumnType} {i : TypedIndex columns} (h : i.info.id ≤ maxStorageId)
    (values : Values columns) (object : ObjectId) : ¬versionPrefix <+: i.key values object := by
  intro hprefix
  have hkey : i.key values object =
      BigEndian.encode 4 i.info.id.toNat ++ (Values.encode columns values ++ BigEndian.encode64 object) := by
    rw [TypedIndex.key, TypedIndex.valuesPrefix, IndexInfo.keyPrefix, BigEndian.encode32, List.append_assoc]
  rw [hkey, encode_four, versionPrefix, List.cons_append, List.cons_prefix_cons] at hprefix
  have hbyte : 255 = (UInt8.ofNat (i.info.id.toNat / 256 / 256 / 256)).toNat :=
    congrArg UInt8.toNat hprefix.1
  have hid : i.info.id.toNat ≤ 2147483647 := h
  rw [UInt8.toNat_ofNat'] at hbyte
  omega

theorem id_of_resolve {t : Schema.ObjectType} {i : Schema.CompositeIndex} {info : IndexInfo}
    (h : IndexInfo.resolve t i = .ok info) : info.id = i.id := by
  unfold IndexInfo.resolve at h
  dsimp only at h
  split at h
  · cases h
  · obtain ⟨fields, -, h⟩ := exists_of_bind_eq_ok h
    cases h
    rfl

def InRange (infos : SortedMap StorageId IndexInfo) : Prop :=
  ∀ id info, infos.get? id = some info → info.id ≤ maxStorageId

/-- The indexes of a valid schema have IDs in the range of storage IDs. -/
theorem inRange_indexInfos {schema : Model} (hvalid : schema.Valid) {infos : SortedMap StorageId IndexInfo}
    (h : indexInfos schema = .ok infos) : InRange infos := by
  refine foldlM_preserves (p := InRange) (fun infos t infos' ht hinfos hfold => ?_)
    (fun id info hnone => by cases hnone) h
  obtain ⟨e, he, rfl⟩ := List.mem_map.1 ht
  refine foldlM_preserves (p := InRange) (fun infos i infos' hi hinfos hinsert => ?_) hinfos hfold
  obtain ⟨x, hx, rfl⟩ := List.mem_map.1 hi
  obtain ⟨resolved, hresolved, hinsert⟩ := exists_of_bind_eq_ok hinsert
  cases hinsert
  intro id info hget
  rcases SortedMap.get?_insert_cases hget with ⟨-, rfl⟩ | hget
  · rw [id_of_resolve hresolved]
    exact Schema.CompositeIndex.id_le_of_validate ((hvalid.objectType e he).index x hx)
  · exact hinfos id info hget

theorem InRange.le_of_index {τ : Type} {t : SchemaTransaction τ} (h : InRange t.indexes) {id : StorageId}
    {columns : List ColumnType} {i : TypedIndex columns} (hi : t.index id columns = .ok i) :
    i.info.id ≤ maxStorageId := by
  unfold SchemaTransaction.index at hi
  split at hi
  · next info hinfo =>
    obtain ⟨⟨⟩, -, hi⟩ := exists_of_bind_eq_ok hi
    cases hi
    exact h id info hinfo
  · cases hi

theorem autogeneratedVersion_ne_zero (schema : Model) : schema.autogeneratedVersion ≠ 0 := by
  unfold Model.autogeneratedVersion
  dsimp only
  split
  · decide
  · next h => exact h

/-! ## Bound transactions -/

/-- What a bound transaction has been checked for against some versions, and has done under their keys: it has
read all of these and writes at most its own version. -/
structure Checked (versions : Versions) (records : Bool) (t : SchemaTransaction Transaction) : Prop where
  valid : t.schema.validate = .ok ()
  version : t.version ≠ 0
  indexes : InRange t.indexes
  reads : ∀ k, versionPrefix <+: k → t.transaction.reads.contains k = true
  writes : ∀ m k, versionPrefix <+: k → (t.transaction.writes.apply m).get? k =
    (if records then m.insert (versionKey t.version) t.schema.toBytes else m).get? k
  known : records = false → ∃ x, versions.get? t.version = some x ∧ x.compatible t.schema = true
  fresh : records = true → versions.get? t.version = none ∧
    ∀ v x, versions.get? v = some x → t.schema.Consistent x

/-- A schema that passes the check agrees with all the versions. -/
theorem consistent_of_checkConsistent {schema : Model} {versions : Versions}
    (h : checkConsistent schema versions = .ok ()) {v : UInt32} {x : Model} (hx : versions.get? v = some x) :
    schema.Consistent x := by
  obtain ⟨r, hr, h⟩ := exists_of_bind_eq_ok h
  obtain ⟨s, hs, hcheck⟩ := exists_of_bind_eq_ok
    (forM_eq_ok_iff.1 h _ (List.mem_map_of_mem (SortedMap.mem_toList_iff.2 hx)))
  exact fun a ha b hb => Schema.Registry.consistent_of_checkConsistent hcheck
    (Schema.Registry.stands_of_ofModel hr ha) (Schema.Registry.stands_of_ofModel hs hb)

/-- The version that a number stands for when a transaction is opened. -/
def actualVersion (schema : Model) (v : UInt32) : UInt32 := if v = 0 then schema.autogeneratedVersion else v

theorem actualVersion_ne_zero (schema : Model) (v : UInt32) : actualVersion schema v ≠ 0 := by
  unfold actualVersion
  split
  · exact autogeneratedVersion_ne_zero schema
  · next h => exact h

section Opening

variable {db : Database} {versions : Versions} {schema : Model}

/-- Opening a transaction on a started database comes down to checking the schema in a new transaction. -/
theorem enter_apply (hstarted : db.started = true) (hschema : schema.validate = .ok ())
    {indexes : SortedMap StorageId IndexInfo} (hindexes : indexInfos schema = .ok indexes) (v : UInt32)
    (allowNew : Bool) :
    (enter schema v allowNew : CatalogM Database (SchemaTransaction Transaction)) db =
      match (apply schema (actualVersion schema v) allowNew : CatalogM Transaction Unit)
          (.start db.version db.data) with
      | (.ok (), t) => (.ok ⟨t, schema, actualVersion schema v, indexes⟩, db)
      | (.error why, _) => (.error why, db) := by
  have hcheck : (liftM schema.validate : CatalogM Database Unit) db = (.ok (), db) := by
    rw [liftSchema_apply, hschema]
    rfl
  have hinfos : (liftM (indexInfos schema) : CatalogM Database (SortedMap StorageId IndexInfo)) db =
      (.ok indexes, db) := by
    rw [liftSchema_apply, hindexes]
    rfl
  have hopen : (liftM (TransactionalDatabase.enter : StoreM Database Transaction) :
      CatalogM Database Transaction) db = (.ok (.start db.version db.data), db) := by
    rw [liftStore_apply, Database.enter_apply, hstarted]
    rfl
  rw [enter, StoreM.bind_ok hcheck, ← actualVersion, StoreM.bind_ok hinfos, StoreM.bind_ok hopen]
  split
  · next h => rw [h]; rfl
  · next h => rw [h]; rfl

/-- A new transaction that can be bound to a valid schema has been checked against the versions that it reads, and
records its own if it has written anything. -/
theorem apply_cases {base : Store} (hholds : Holds base versions) (hvalid : AllValid versions) (n : Nat)
    (hschema : schema.validate = .ok ()) {indexes : SortedMap StorageId IndexInfo} (hindexes : InRange indexes)
    {v : UInt32} (hv : v ≠ 0) (allowNew : Bool) :
    (∃ why t, (apply schema v allowNew : CatalogM Transaction Unit) (.start n base) = (.error why, t)) ∨
    ∃ t, (apply schema v allowNew : CatalogM Transaction Unit) (.start n base) = (.ok (), t) ∧
      t.startVersion = n ∧ Checked versions (!t.writes.isEmpty) ⟨t, schema, v, indexes⟩ := by
  obtain ⟨reads, hreads, happly⟩ := apply_start hholds hvalid n schema v allowNew
  rw [happly]
  cases hx : versions.get? v with
  | some x =>
    cases hcompatible : x.compatible schema with
    | false =>
      simp only [hcompatible, Bool.false_eq_true, if_false]
      exact .inl ⟨_, _, rfl⟩
    | true =>
      simp only [hcompatible, if_true]
      exact .inr ⟨_, rfl, rfl, hschema, hv, hindexes, hreads, fun m k _ => rfl, fun _ => ⟨x, hx, hcompatible⟩, nofun⟩
  | none =>
    cases allowNew with
    | false => exact .inl ⟨_, _, rfl⟩
    | true =>
      simp only [if_true]
      cases hconsistent : checkConsistent schema versions with
      | error why => exact .inl ⟨_, _, rfl⟩
      | ok u =>
        refine .inr ⟨_, rfl, rfl, hschema, hv, hindexes, hreads, ?_, nofun,
          fun _ => ⟨hx, fun w y => consistent_of_checkConsistent hconsistent⟩⟩
        intro m k _
        exact congrArg (SortedMap.get? · k) (Batch.apply_put .empty m _ _)

/-- Opening a transaction leaves the database as it is; what is opened has been checked against the versions
there. -/
theorem enter_cases (hstarted : db.started = true) (hholds : Holds db.data versions) (hvalid : AllValid versions)
    (schema : Model) (v : UInt32) (allowNew : Bool) :
    (∃ why, (enter schema v allowNew : CatalogM Database (SchemaTransaction Transaction)) db = (.error why, db)) ∨
    ∃ t, (enter schema v allowNew : CatalogM Database (SchemaTransaction Transaction)) db = (.ok t, db) ∧
      t.transaction.startVersion = db.version ∧ Checked versions (!t.transaction.writes.isEmpty) t := by
  cases hschema : schema.validate with
  | error why =>
    exact .inl ⟨_, StoreM.bind_error (by rw [liftSchema_apply, hschema]; rfl)⟩
  | ok u =>
    cases hindexes : indexInfos schema with
    | error why =>
      have hcheck : (liftM schema.validate : CatalogM Database Unit) db = (.ok (), db) := by
        rw [liftSchema_apply, hschema]
        rfl
      exact .inl ⟨_, (StoreM.bind_ok hcheck).trans
        (StoreM.bind_error (by rw [liftSchema_apply, hindexes]; rfl))⟩
    | ok indexes =>
      have hrange : InRange indexes := inRange_indexInfos (Model.valid_of_validate hschema) hindexes
      rw [enter_apply hstarted hschema hindexes]
      rcases apply_cases hholds hvalid db.version hschema hrange (actualVersion_ne_zero schema v) allowNew with
        ⟨why, t, happly⟩ | ⟨t, happly, hstart, hchecked⟩
      · rw [happly]
        exact .inl ⟨why, rfl⟩
      · rw [happly]
        exact .inr ⟨_, rfl, hstart, hchecked⟩

theorem versions_apply (hstarted : db.started = true) (hholds : Holds db.data versions)
    (hvalid : AllValid versions) : (Catalog.versions : CatalogM Database Versions) db = (.ok versions, db) := by
  have hopen : (liftM (TransactionalDatabase.enter : StoreM Database Transaction) :
      CatalogM Database Transaction) db = (.ok (.start db.version db.data), db) := by
    rw [liftStore_apply, Database.enter_apply, hstarted]
    rfl
  obtain ⟨reads, -, hrun⟩ := recorded_start hholds hvalid db.version
  rw [Catalog.versions, StoreM.bind_ok hopen, hrun]
  rfl

theorem commit_apply (t : SchemaTransaction Transaction) (db : Database) :
    (Catalog.commit t : CatalogM Database Unit) db =
      ((TransactionalDatabase.commit t.transaction db).1.mapError .store,
        (TransactionalDatabase.commit t.transaction db).2) :=
  liftStore_apply ..

end Opening

/-- The transaction after a call that leaves the keys of versions alone. -/
theorem Checked.call {versions : Versions} {records : Bool} {t : SchemaTransaction Transaction}
    (h : Checked versions records t) {c : Call}
    (hc : ∀ (m : Store) k, versionPrefix <+: k → (c.run m).2.get? k = m.get? k) :
    Checked versions records { t with transaction := (c.run t.transaction).2 } :=
  ⟨h.valid, h.version, h.indexes,
    fun k hk => (Transaction.run_extends c t.transaction).reads k (h.reads k hk),
    fun m k hk => (Transaction.get?_apply_writes_run c (fun n => hc n k hk) t.transaction m).trans (h.writes m k hk),
    h.known, h.fresh⟩

end Catalog

end Keyspace
