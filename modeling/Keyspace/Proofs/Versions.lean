import Keyspace.Catalog
import Keyspace.Proofs.Document
import Keyspace.Proofs.Readers
import Keyspace.Proofs.Registry

/-!
Recorded schema versions in one store. A store holds some versions if the keys under the prefix hold just their
documents; reading the store gives them back, and opening a transaction against a schema checks it against them
or adds it to them.
-/
namespace Keyspace

namespace Catalog

open Schema (Model)

theorem prefix_versionKey (v : UInt32) : versionPrefix <+: versionKey v := List.prefix_append ..

theorem versionKey_inj {v w : UInt32} : versionKey v = versionKey w ↔ v = w := by
  rw [versionKey, versionKey, List.append_cancel_left_eq, BigEndian.encode32_inj]

def record (d : UInt32 × Model) : Entry := (versionKey d.1, d.2.toBytes)

/-- The keys under the prefix hold just the documents of these versions. -/
structure Holds (m : Store) (versions : Versions) : Prop where
  get?_key : ∀ v, m.get? (versionKey v) = (versions.get? v).map Model.toBytes
  get?_other : ∀ k, versionPrefix <+: k → (∀ v, k ≠ versionKey v) → m.get? k = none

def AllValid (versions : Versions) : Prop := ∀ v x, versions.get? v = some x → x.validate = .ok ()

theorem AllValid.insert {versions : Versions} (h : AllValid versions) {x : Model} (hx : x.validate = .ok ())
    (v : UInt32) : AllValid (versions.insert v x) := by
  intro w y hy
  rcases SortedMap.get?_insert_cases hy with ⟨-, rfl⟩ | hy
  · exact hx
  · exact h w y hy

theorem toBytes_inj {x y : Model} (hx : x.validate = .ok ()) (hy : y.validate = .ok ())
    (h : x.toBytes = y.toBytes) : x = y := by
  have hread := Model.ofBytes_toBytes hx
  rw [h, Model.ofBytes_toBytes hy, Except.ok.injEq] at hread
  exact hread.symm

namespace Holds

variable {m n : Store} {versions other : Versions}

theorem empty (h : ∀ k, versionPrefix <+: k → m.get? k = none) : Holds m .empty :=
  ⟨fun v => h _ (prefix_versionKey v), fun k hk _ => h k hk⟩

theorem congr (h : Holds m versions) (hsame : ∀ k, versionPrefix <+: k → n.get? k = m.get? k) :
    Holds n versions :=
  ⟨fun v => (hsame _ (prefix_versionKey v)).trans (h.get?_key v),
    fun k hk hno => (hsame k hk).trans (h.get?_other k hk hno)⟩

/-- A document that is stored under the key of a version is held as that version. -/
theorem insert (h : Holds m versions) (v : UInt32) (x : Model) :
    Holds (m.insert (versionKey v) x.toBytes) (versions.insert v x) := by
  constructor
  · intro w
    rw [SortedMap.get?_insert, SortedMap.get?_insert, h.get?_key]
    by_cases hw : w = v
    · simp [hw]
    · simp [hw, versionKey_inj]
  · intro k hk hno
    rw [SortedMap.get?_insert, if_neg (hno v), h.get?_other k hk hno]

/-- A store holds one map of valid schemas at most. -/
theorem unique (h : Holds m versions) (h' : Holds m other) (hvalid : AllValid versions)
    (hvalid' : AllValid other) : versions = other := by
  refine SortedMap.ext_get? fun v => ?_
  have hsame := (h.get?_key v).symm.trans (h'.get?_key v)
  cases hx : versions.get? v with
  | none =>
    rw [hx, Option.map_none, eq_comm, Option.map_eq_none_iff] at hsame
    exact hsame.symm
  | some x =>
    rw [hx, Option.map_some, eq_comm] at hsame
    obtain ⟨y, hy, hbytes⟩ := Option.map_eq_some_iff.1 hsame
    rw [hy, toBytes_inj (hvalid' v y hy) (hvalid v x hx) hbytes]

end Holds

/-! ## Reading -/

theorem readVersion_record {d : UInt32 × Model} (h : d.2.validate = .ok ()) :
    readVersion (record d) = .ok d := by
  have hsuffix : (versionKey d.1).drop versionPrefix.length = BigEndian.encode32 d.1 :=
    List.drop_left
  have hlength : (BigEndian.encode32 d.1).length = 4 := BigEndian.length_encode ..
  simp [readVersion, record, hsuffix, hlength, Model.ofBytes_toBytes h]

theorem readItems_records {ds : List (UInt32 × Model)} (h : ∀ d ∈ ds, d.2.validate = .ok ())
    (versions : Versions) :
    readItems ((ds.map record).map .ok) versions = .ok (ds.foldl (fun m d => m.insert d.1 d.2) versions) := by
  induction ds generalizing versions with
  | nil => rfl
  | cons d ds ih =>
    rw [List.map_cons, List.map_cons, readItems, readVersion_record (h d List.mem_cons_self)]
    exact ih (fun x hx => h x (List.mem_cons_of_mem _ hx)) _

/-- The entries of a store under the prefix are the records of its versions. -/
theorem Holds.exists_records {m : Store} {versions : Versions} (h : Holds m versions) :
    ∃ ds : List (UInt32 × Model),
      ds.map record = (Scan.restrict m (.startingWith versionPrefix)).toList ∧ ds.Perm versions.toList := by
  obtain ⟨entries, hentries⟩ : ∃ es, Scan.restrict m (.startingWith versionPrefix) = es := ⟨_, rfl⟩
  have hget : ∀ k, entries.get? k = if (RangeSet.startingWith versionPrefix).contains k then m.get? k else none :=
    fun k => by rw [← hentries, Scan.get?_restrict]
  have hin : ∀ k, (RangeSet.startingWith versionPrefix).contains k = true ↔ versionPrefix <+: k := fun k => by
    rw [RangeSet.startingWith, RangeSet.contains_single, KeyRange.contains_startingWith]
  have hmem : ∀ v x, versions.get? v = some x → record (v, x) ∈ entries.toList := fun v x hx => by
    rw [record, SortedMap.mem_toList_iff, hget, if_pos ((hin _).2 (prefix_versionKey v)), h.get?_key, hx]
    rfl
  have hrecords : ∀ e ∈ entries.toList, ∃ d, versions.get? d.1 = some d.2 ∧ record d = e := by
    rintro ⟨k, bytes⟩ he
    rw [SortedMap.mem_toList_iff, hget] at he
    split at he
    · next hk =>
      have hrecord : ∃ v, k = versionKey v := Classical.byContradiction fun hno => by
        rw [h.get?_other k ((hin k).1 hk) fun v hv => hno ⟨v, hv⟩] at he
        cases he
      obtain ⟨v, rfl⟩ := hrecord
      rw [h.get?_key] at he
      obtain ⟨x, hx, rfl⟩ := Option.map_eq_some_iff.1 he
      exact ⟨(v, x), hx, rfl⟩
    · cases he
  obtain ⟨ds, hds, hversions⟩ := exists_map_eq hrecords
  have hdistinct : ds.Pairwise fun a b => a.1 ≠ b.1 := by
    have hpairwise := entries.distinct
    rw [← hds, List.pairwise_map] at hpairwise
    exact hpairwise.imp fun hab he => hab (congrArg versionKey he)
  refine ⟨ds, by rw [hds, hentries], ?_⟩
  refine (List.perm_ext_iff_of_nodup (hdistinct.imp fun hab he => hab (congrArg Prod.fst he))
    (versions.distinct.imp fun hab he => hab (congrArg Prod.fst he))).2 fun d => ?_
  rw [show d ∈ versions.toList ↔ _ from SortedMap.mem_toList_iff]
  refine ⟨hversions d, ?_⟩
  intro hd
  have hrecord := hmem d.1 d.2 hd
  rw [← hds] at hrecord
  obtain ⟨c, hc, hcd⟩ := List.mem_map.1 hrecord
  have hv : c.1 = d.1 := versionKey_inj.1 (congrArg Prod.fst hcd)
  have hx := hversions c hc
  rw [hv, hd, Option.some.injEq] at hx
  rwa [show d = c from Prod.ext hv.symm hx]

/-- Reading the entries under the prefix gives the versions that they hold. -/
theorem Holds.readItems_eq {m : Store} {versions : Versions} (h : Holds m versions)
    (hvalid : AllValid versions) :
    readItems ((Scan.restrict m (.startingWith versionPrefix)).toList.map .ok) .empty = .ok versions := by
  obtain ⟨ds, hds, hperm⟩ := h.exists_records
  have hds' : ∀ d ∈ ds, d.2.validate = .ok () := fun d hd =>
    hvalid d.1 d.2 (SortedMap.mem_toList_iff.1 (hperm.mem_iff.1 hd))
  rw [← hds, readItems_records hds']
  exact congrArg Except.ok (SortedMap.ofList_perm hperm)

/-- Whoever reads a store with some versions finds these, and has then read all keys under the prefix. -/
theorem recorded_apply {σ : Type} [KeyValueReader σ] (R : Reading σ) {s : σ} {m : Store} (h : R.shows s m)
    (hcount : m.size ≤ KeyValueReader.entryCount s) {versions : Versions} (hholds : Holds m versions)
    (hvalid : AllValid versions) : ∃ s',
    (recorded : CatalogM σ Versions) s = (.ok versions, s') ∧ R.shows s' m ∧
      ∀ x, versionPrefix <+: x → R.seen s' x := by
  have hsize : (Scan.restrict m (.startingWith versionPrefix)).size ≤ KeyValueReader.entryCount s :=
    Nat.le_trans (List.length_filter_le _ _) hcount
  obtain ⟨s', hrun, hshows, hseen⟩ := Scan.items_create R h hsize
  refine ⟨s', ?_, hshows, fun x hx => hseen x ?_⟩
  · change (fun p : (Scan × List (Except StoreError Entry)) × σ => (readItems p.1.2 .empty, p.2))
      ((Scan.create (.startingWith versionPrefix) none false).items s) = _
    rw [hrun]
    exact congrArg (·, s') (hholds.readItems_eq hvalid)
  · rw [RangeSet.startingWith, RangeSet.contains_single, KeyRange.contains_startingWith]
    exact hx

/-- A transaction finds the versions of the store that it shows. -/
theorem recorded_transaction {t : Transaction} {m : Store} (hopen : t.expired? = none) (hshows : t.Shows m)
    {versions : Versions} (hholds : Holds m versions) (hvalid : AllValid versions) : ∃ reads : RangeSet,
    (∀ x, versionPrefix <+: x → reads.contains x = true) ∧
      (recorded : CatalogM Transaction Versions) t = (.ok versions, { t with reads }) := by
  obtain ⟨u, hrun, ⟨hu, -, -⟩, hseen⟩ := recorded_apply t.reading ⟨rfl, hopen, hshows⟩
    (Transaction.size_le_entryCount hshows) hholds hvalid
  rw [hu] at hrun
  exact ⟨u.reads, hseen, hrun⟩

/-- A new transaction finds the versions of its store. -/
theorem recorded_start {base : Store} {versions : Versions} (hholds : Holds base versions)
    (hvalid : AllValid versions) (n : Nat) : ∃ reads : RangeSet,
    (∀ x, versionPrefix <+: x → reads.contains x = true) ∧
      (recorded : CatalogM Transaction Versions) (.start n base) =
        (.ok versions, { Transaction.start n base with reads }) :=
  recorded_transaction rfl (Transaction.shows_start n base) hholds hvalid

/-! ## Binding a transaction to a schema -/

theorem liftSchema_apply {σ α : Type} (r : Except Schema.SchemaError α) (s : σ) :
    (liftM r : CatalogM σ α) s = (r.mapError .schema, s) := rfl

theorem liftStore_apply {σ α : Type} (x : StoreM σ α) (s : σ) :
    (liftM x : CatalogM σ α) s = ((x s).1.mapError .store, (x s).2) := rfl

/-- A transaction on a store with some versions is bound to a schema that is compatible with the one under its
version; it adds the schema where there is none, if that is allowed and the schema agrees with all others.
Whatever it comes to, it has then read all keys under the prefix. -/
theorem apply_start {base : Store} {versions : Versions} (hholds : Holds base versions)
    (hvalid : AllValid versions) (n : Nat) (schema : Model) (v : UInt32) (allowNew : Bool) : ∃ reads : RangeSet,
    (∀ x, versionPrefix <+: x → reads.contains x = true) ∧
      (apply schema v allowNew : CatalogM Transaction Unit) (.start n base) =
        let t : Transaction := { Transaction.start n base with reads }
        match versions.get? v with
        | some x =>
          if x.compatible schema then (.ok (), t) else (.error (.mismatch v (schema.diff x)), t)
        | none =>
          if allowNew then
            match checkConsistent schema versions with
            | .ok () =>
              (.ok (), { t with
                view := t.view.put (versionKey v) schema.toBytes
                writes := t.writes.put (versionKey v) schema.toBytes })
            | .error why => (.error (.schema why), t)
          else (.error (.unknownVersion v), t) := by
  obtain ⟨reads, hreads, hrun⟩ := recorded_start hholds hvalid n
  refine ⟨reads, hreads, ?_⟩
  rw [apply, StoreM.bind_ok hrun]
  have hopen : ({ Transaction.start n base with reads } : Transaction).expired? = none := rfl
  dsimp only
  cases versions.get? v with
  | some x =>
    dsimp only
    cases x.compatible schema <;> rfl
  | none =>
    cases allowNew with
    | false => rfl
    | true =>
      have hput := Transaction.put_apply hopen (versionKey v) schema.toBytes
      simp only [if_true]
      cases checkConsistent schema versions with
      | error why => rfl
      | ok u =>
        rw [StoreM.bind_ok (liftSchema_apply (.ok u) _), liftStore_apply, hput]
        rfl

end Catalog

end Keyspace
