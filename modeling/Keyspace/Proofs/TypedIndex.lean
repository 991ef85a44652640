import Keyspace.Index.TypedIndex
import Keyspace.Proofs.Column
import Keyspace.Proofs.Readers
import Mathlib.Data.List.Induction

/-!
Composite indexes as ordered sets. The keys of an index sort as the values and objects that they stand for, and those
of another index are other keys; so what is inserted and not removed since is just what the index gives back, in
order, whatever is done to other keys.
-/
namespace Keyspace.Index

namespace TypedIndex

variable {columns : List ColumnType}

/-- The order of the entries of an index: by their values, then by object. -/
def Less (p q : Values columns × ObjectId) : Prop := Values.Less columns p.1 q.1 ∨ p.1 = q.1 ∧ p.2 < q.2

theorem less_total (p q : Values columns × ObjectId) : p = q ∨ Less p q ∨ Less q p := by
  rcases Values.less_total columns p.1 q.1 with hvalues | hlt | hgt
  · rcases ColumnType.reference.less_total p.2 q.2 with hid | hlt | hgt
    · exact .inl (Prod.ext hvalues hid)
    · exact .inr (.inl (.inr ⟨hvalues, hlt⟩))
    · exact .inr (.inr (.inr ⟨hvalues.symm, hgt⟩))
  · exact .inr (.inl (.inl hlt))
  · exact .inr (.inr (.inl hgt))

/-! ## Keys -/

variable {i : TypedIndex columns}

theorem key_eq (i : TypedIndex columns) (values : Values columns) (id : ObjectId) :
    i.key values id = i.info.keyPrefix ++ (Values.encode columns values ++ BigEndian.encode64 id) := by
  rw [key, valuesPrefix, List.append_assoc]

theorem prefix_key (i : TypedIndex columns) (values : Values columns) (id : ObjectId) :
    i.info.keyPrefix <+: i.key values id := by
  rw [key_eq]
  exact List.prefix_append ..

theorem precedes_key {p q : Values columns × ObjectId} (h : Less p q) : Precedes (i.key p.1 p.2) (i.key q.1 q.2) := by
  rw [key_eq, key_eq]
  refine Precedes.append_left ?_ _
  rcases h with hlt | ⟨hvalues, hlt⟩
  · exact (Values.precedes_encode hlt).append _ _
  · rw [hvalues]
    exact (BigEndian.precedes_encode64 hlt).append_left _

theorem eq_of_key_eq {p q : Values columns × ObjectId} (h : i.key p.1 p.2 = i.key q.1 q.2) : p = q := by
  rcases less_total p q with he | hlt | hgt
  · exact he
  · exact absurd h (by simpa using (precedes_key (i := i) hlt).append_ne [] [])
  · exact absurd h.symm (by simpa using (precedes_key (i := i) hgt).append_ne [] [])

theorem less_of_key_lt {p q : Values columns × ObjectId} (h : i.key p.1 p.2 < i.key q.1 q.2) : Less p q := by
  rcases less_total p q with rfl | hlt | hgt
  · exact absurd h (List.lt_irrefl _)
  · exact hlt
  · exact absurd h (Std.not_lt.2 (Std.le_of_lt (precedes_key (i := i) hgt).lt))

/-- No bytes of other values begin as the bytes of some values do. -/
theorem valuesPrefix_prefix_key {values other : Values columns} {id : ObjectId} :
    i.valuesPrefix values <+: i.key other id ↔ other = values := by
  rw [key_eq, valuesPrefix, List.prefix_append_right_inj, Values.encode_prefix_iff]
  exact eq_comm

/-- Keys sort as the values and objects that they stand for. Columns are compared in turn: IDs as natural numbers,
longs with their signs, strings by their bytes, and false comes before true. The bytes of some values begin the keys
with those values and no others, and no encoding of values begins another one. -/
theorem key_order (i : TypedIndex columns) :
    (∀ (v w : Values columns) (a b : ObjectId), i.key v a < i.key w b ↔
      Values.Less columns v w ∨ v = w ∧ a.toNat < b.toNat) ∧
    (∀ (v w : Values columns) (b : ObjectId), i.valuesPrefix v <+: i.key w b ↔ v = w) ∧
    (∀ v w : Values columns, Values.encode columns v <+: Values.encode columns w ↔ v = w) ∧
    (∀ a b : ObjectId, ColumnType.reference.Less a b ↔ a.toNat < b.toNat) ∧
    (∀ a b : Int64, ColumnType.long.Less a b ↔ a.toInt < b.toInt) ∧
    (∀ a b : String, ColumnType.string.Less a b ↔ Utf8.encode a < Utf8.encode b) ∧
    (∀ a b : Bool, ColumnType.boolean.Less a b ↔ a = false ∧ b = true) := by
  refine ⟨fun v w a b => ?_, fun v w b => valuesPrefix_prefix_key.trans eq_comm, fun v w => ?_,
    fun a b => UInt64.lt_iff_toNat_lt, fun a b => Int64.lt_iff_toInt_lt, fun a b => ColumnType.string_less_iff,
    fun a b => ColumnType.boolean_less_iff⟩
  · rw [← UInt64.lt_iff_toNat_lt]
    exact ⟨less_of_key_lt (p := (v, a)) (q := (w, b)), fun h => (precedes_key (p := (v, a)) (q := (w, b)) h).lt⟩
  · have hend : Values.encode columns v <+: Values.encode columns w ++ [] ↔ v = w := Values.encode_prefix_iff
    rwa [List.append_nil] at hend

theorem decodeEntry_apply (values : Values columns) (id : ObjectId) (rest : List UInt8) :
    (decodeEntry : Decoder (Values columns × ObjectId))
      (Values.encode columns values ++ (BigEndian.encode64 id ++ rest)) = (.ok (values, id), rest) := by
  refine (StoreM.bind_ok (Values.decode_apply columns values _)).trans ?_
  exact (StoreM.bind_ok (ColumnType.reference.decode_apply id rest)).trans rfl

theorem decodeKey_key (i : TypedIndex columns) (values : Values columns) (id : ObjectId) :
    i.decodeKey (i.key values id) = .ok (values, id) := by
  have hentry := decodeEntry_apply values id []
  rw [List.append_nil] at hentry
  rw [decodeKey, if_pos (List.isPrefixOf_iff_prefix.2 (i.prefix_key values id)), key_eq, List.drop_left, hentry]

/-- A key belongs to one index at most. -/
theorem id_eq_of_isPrefix {others : List ColumnType} {j : TypedIndex others} {k : Key} (hi : i.info.keyPrefix <+: k)
    (hj : j.info.keyPrefix <+: k) : i.info.id = j.info.id := by
  have hlength : i.info.keyPrefix.length = j.info.keyPrefix.length := by
    rw [IndexInfo.keyPrefix, IndexInfo.keyPrefix, BigEndian.encode32, BigEndian.encode32, BigEndian.length_encode,
      BigEndian.length_encode]
  have hsame : i.info.keyPrefix = j.info.keyPrefix :=
    (List.prefix_of_prefix_length_le hi hj (Nat.le_of_eq hlength)).eq_of_length hlength
  exact BigEndian.encode32_inj.1 hsame

/-! ## What a store holds -/

structure Reads {σ : Type} [KeyValueReader σ] (i : TypedIndex columns) (s : σ)
    (present : Values columns → ObjectId → Prop) : Prop where
  entries : ∃ pairs : List (Values columns × ObjectId), pairs.Pairwise Less ∧
    (∀ values id, (values, id) ∈ pairs ↔ present values id) ∧
    (i.entries s).1 = pairs.map .ok ∧ (i.entriesReversed s).1 = pairs.reverse.map .ok
  objectsWith : ∀ values, ∃ ids : List ObjectId, ids.Pairwise (· < ·) ∧ (∀ id, id ∈ ids ↔ present values id) ∧
    (i.objectsWith values s).1 = .ok ids
  contains : ∀ values id, ∃ found, (i.contains values id s).1 = .ok found ∧ (found = true ↔ present values id)

/-- The keys of an index in a store are those of a set of values and objects; they have no values. -/
def Holds (i : TypedIndex columns) (m : Store) (present : Values columns → ObjectId → Prop) : Prop :=
  ∀ k v, i.info.keyPrefix <+: k → (m.get? k = some v ↔ v = [] ∧ ∃ values id, k = i.key values id ∧ present values id)

def entry (i : TypedIndex columns) (p : Values columns × ObjectId) : Entry := (i.key p.1 p.2, [])

variable {m : Store} {present : Values columns → ObjectId → Prop}

/-- The entries of a store under a part of an index are in the order of what they stand for. -/
theorem Holds.exists_pairs (h : i.Holds m present) {start : Key} (hstart : i.info.keyPrefix <+: start) :
    ∃ pairs : List (Values columns × ObjectId), pairs.Pairwise Less ∧
      (∀ values id, (values, id) ∈ pairs ↔ present values id ∧ start <+: i.key values id) ∧
      Scan.expected m (.startingWith start) none false = pairs.map i.entry := by
  obtain ⟨entries, hentries⟩ : ∃ es, Scan.expected m (.startingWith start) none false = es := ⟨_, rfl⟩
  have hmem : ∀ k v, (k, v) ∈ entries ↔ m.get? k = some v ∧ start <+: k := by
    intro k v
    rw [← hentries, Scan.expected, List.mem_filter]
    refine and_congr SortedMap.mem_toList_iff ?_
    simp [RangeSet.startingWith]
  have hasc : entries.Pairwise fun a b => a.1 < b.1 := hentries ▸ m.ascending.filter _
  have hpairs : ∀ e ∈ entries, ∃ p : Values columns × ObjectId, present p.1 p.2 ∧ i.entry p = e := by
    rintro ⟨k, v⟩ he
    obtain ⟨hget, hk⟩ := (hmem k v).1 he
    obtain ⟨rfl, values, id, rfl, hpresent⟩ := (h k v (hstart.trans hk)).1 hget
    exact ⟨(values, id), hpresent, rfl⟩
  obtain ⟨pairs, rfl, hpresent⟩ := exists_map_eq hpairs
  refine ⟨pairs, (List.pairwise_map.1 hasc).imp less_of_key_lt, ?_, hentries⟩
  intro values id
  constructor
  · intro hp
    exact ⟨hpresent _ hp, ((hmem _ _).1 (List.mem_map_of_mem hp)).2⟩
  · rintro ⟨hp, hk⟩
    have hget : m.get? (i.key values id) = some [] := (h _ [] (i.prefix_key values id)).2 ⟨rfl, values, id, rfl, hp⟩
    obtain ⟨q, hq, he⟩ := List.mem_map.1 ((hmem _ _).2 ⟨hget, hk⟩)
    have hqp : q = (values, id) := eq_of_key_eq (i := i) (congrArg Prod.fst he)
    exact hqp ▸ hq

theorem mapM_map_ok {α β γ : Type} {f : β → Except StoreError γ} {g : α → β} {image : α → γ} {as : List α}
    (h : ∀ a ∈ as, f (g a) = .ok (image a)) : (as.map g).mapM f = .ok (as.map image) := by
  induction as with
  | nil => rfl
  | cons a as ih =>
    rw [List.map_cons, List.mapM_cons, h a List.mem_cons_self, ih fun b hb => h b (List.mem_cons_of_mem _ hb)]
    rfl

/-- An entry is there just if its values and its object are present. -/
theorem Holds.get?_key (h : i.Holds m present) (values : Values columns) (id : ObjectId) :
    (m.get? (i.key values id)).isSome = true ↔ present values id := by
  constructor
  · intro hsome
    obtain ⟨v, hv⟩ := Option.isSome_iff_exists.1 hsome
    obtain ⟨-, values', id', hkey, hpresent⟩ := (h _ v (i.prefix_key values id)).1 hv
    cases eq_of_key_eq (p := (values, id)) (q := (values', id')) hkey
    exact hpresent
  · intro hpresent
    exact Option.isSome_iff_exists.2 ⟨[], (h _ [] (i.prefix_key values id)).2 ⟨rfl, values, id, rfl, hpresent⟩⟩

section

variable {σ : Type} [KeyValueReader σ] {R : Reading σ} {s : σ}

/-- All entries are listed in order, forwards and backwards. -/
theorem Holds.entries_eq (hdown : R.Downward) (hs : R.shows s m) (hcount : m.size ≤ KeyValueReader.entryCount s)
    (h : i.Holds m present) : ∃ pairs : List (Values columns × ObjectId), pairs.Pairwise Less ∧
      (∀ values id, (values, id) ∈ pairs ↔ present values id) ∧
      (i.entries s).1 = pairs.map .ok ∧ (i.entriesReversed s).1 = pairs.reverse.map .ok := by
  obtain ⟨pairs, hless, hmem, hexpected⟩ := h.exists_pairs (List.prefix_refl i.info.keyPrefix)
  have hdecoded : ∀ ps : List (Values columns × ObjectId),
      ((ps.map i.entry).map Except.ok).map (fun item => item.bind fun e => i.decodeKey e.1) = ps.map .ok := by
    intro ps
    rw [List.map_map, List.map_map]
    exact List.map_congr_left fun p _ => i.decodeKey_key p.1 p.2
  have hyields := Scan.yields_expected R hdown hs hcount (.startingWith i.info.keyPrefix) none
  refine ⟨pairs, hless, fun values id => (hmem values id).trans (and_iff_left (i.prefix_key values id)), ?_, ?_⟩
  · have hitems := (hyields false).items
    rw [hexpected] at hitems
    exact (congrArg (List.map _) hitems).trans (hdecoded pairs)
  · have hitems := (hyields true).items
    rw [Scan.expected_reverse, hexpected, ← List.map_reverse] at hitems
    exact (congrArg (List.map _) hitems).trans (hdecoded pairs.reverse)

/-- The objects with some values are listed in order. -/
theorem Holds.objectsWith_eq (hs : R.shows s m) (hcount : m.size ≤ KeyValueReader.entryCount s)
    (h : i.Holds m present) (values : Values columns) : ∃ ids : List ObjectId, ids.Pairwise (· < ·) ∧
      (∀ id, id ∈ ids ↔ present values id) ∧ (i.objectsWith values s).1 = .ok ids := by
  have hstart : i.info.keyPrefix <+: i.valuesPrefix values := List.prefix_append ..
  obtain ⟨pairs, hless, hmem, hexpected⟩ := h.exists_pairs hstart
  have hsame : ∀ p ∈ pairs, p.1 = values := fun p hp => valuesPrefix_prefix_key.1 ((hmem p.1 p.2).1 hp).2
  refine ⟨pairs.map (·.2), ?_, ?_, ?_⟩
  · refine List.pairwise_map.2 (hless.imp_of_mem fun {p q} hp hq hpq => ?_)
    rcases hpq with hlt | ⟨-, hlt⟩
    · rw [hsame p hp, hsame q hq] at hlt
      exact absurd rfl ((Values.precedes_encode hlt).append_ne [] [])
    · exact hlt
  · intro id
    rw [List.mem_map]
    constructor
    · rintro ⟨p, hp, rfl⟩
      exact hsame p hp ▸ ((hmem p.1 p.2).1 hp).1
    · exact fun hp => ⟨(values, id), (hmem values id).2 ⟨hp, valuesPrefix_prefix_key.2 rfl⟩, rfl⟩
  · have hn : ((Scan.create (.startingWith (i.valuesPrefix values)) none false).remaining m).length <
        KeyValueReader.entryCount s + 1 :=
      Nat.lt_succ_of_le (Nat.le_trans (Scan.length_remaining_le _ m) hcount)
    obtain ⟨s', hrun⟩ := Scan.images_apply (fun e => (i.decodeKey e.1).map (·.2)) hn rfl nofun hs
    have himages : (pairs.map i.entry).mapM (fun e => (i.decodeKey e.1).map (·.2)) = .ok (pairs.map (·.2)) :=
      mapM_map_ok fun p _ => congrArg (Except.map (·.2)) (i.decodeKey_key p.1 p.2)
    rw [Scan.remaining_create, hexpected, himages] at hrun
    exact congrArg Prod.fst hrun

theorem contains_eq {v : Option Value} {values : Values columns} {id : ObjectId}
    (hget : (KeyValueReader.get? (i.key values id) s).1 = .ok v) : (i.contains values id s).1 = .ok v.isSome := by
  rw [TypedIndex.contains, StoreM.bind_apply]
  rcases hresult : KeyValueReader.get? (i.key values id) s with ⟨r, s'⟩
  rw [hresult] at hget
  cases hget
  rfl

/-- An index is read as the set that its keys in the store stand for. -/
theorem Holds.reads (hdown : R.Downward) (hs : R.shows s m) (hcount : m.size ≤ KeyValueReader.entryCount s)
    (hget : ∀ k, (KeyValueReader.get? k s).1 = .ok (m.get? k)) (h : i.Holds m present) : i.Reads s present where
  entries := h.entries_eq hdown hs hcount
  objectsWith := h.objectsWith_eq hs hcount
  contains values id := ⟨_, contains_eq (hget (i.key values id)), h.get?_key values id⟩

end

structure Refuses {σ : Type} [KeyValueReader σ] (i : TypedIndex columns) (s : σ) (why : StoreError) : Prop where
  entries : (i.entries s).1 = [.error why]
  entriesReversed : (i.entriesReversed s).1 = [.error why]
  objectsWith : ∀ values, (i.objectsWith values s).1 = .error why
  contains : ∀ values id, (i.contains values id s).1 = .error why

/-- Of a transaction that has outlived its limit nothing is read, so that nothing is decoded. -/
theorem refuses_of_expired (i : TypedIndex columns) {t : Transaction} {limit : Nat} (h : t.expired? = some limit) :
    i.Refuses t (.retry (.timedOut limit)) := by
  have hin : ∀ start : Key, (RangeSet.startingWith start).contains start = true := fun start =>
    RangeSet.contains_single.trans (KeyRange.contains_startingWith.2 (List.prefix_refl start))
  have hentries : ∀ reverse, (i.entriesFrom i.info.keyPrefix reverse t).1 = [.error (.retry (.timedOut limit))] := by
    intro reverse
    rcases Transaction.items_of_expired h (Scan.fetched_create (.startingWith i.info.keyPrefix) none reverse) with
      ⟨-, hnone⟩ | hitems
    · have hfaces := hnone i.info.keyPrefix (by rw [Scan.ranges_create]; exact hin _)
      rw [Scan.faces_create] at hfaces
      cases hfaces
    · exact congrArg (List.map _) hitems
  refine ⟨hentries false, hentries true, ?_, ?_⟩
  · intro values
    obtain ⟨w', ⟨-, hnone⟩ | hnext⟩ :=
      Transaction.next_of_expired h (Scan.fetched_create (.startingWith (i.valuesPrefix values)) none false)
    · have hfaces := hnone (i.valuesPrefix values) (by rw [Scan.ranges_create]; exact hin _)
      rw [Scan.faces_create] at hfaces
      cases hfaces
    · have himages : ∀ n, (Scan.images (fun e => (i.decodeKey e.1).map (·.2)) (n + 1)
          (.create (.startingWith (i.valuesPrefix values)) none false)) t =
            (.error (.retry (.timedOut limit)), t) := by
        intro n
        rw [Scan.images, StoreM.bind_apply, StoreM.lift_apply, hnext]
        rfl
      exact congrArg Prod.fst (himages _)
  · intro values id
    have hget : (KeyValueReader.get? (i.key values id) : StoreM Transaction _) t = _ :=
      StoreM.bind_error (Transaction.current_apply_of_expired h)
    rw [TypedIndex.contains, StoreM.bind_apply, hget]

end TypedIndex

/-! ## Several indexes on one store -/

section Indexes

variable {ι : Type} {columns : ι → List ColumnType}

inductive IndexStep (columns : ι → List ColumnType) where
  | insert (j : ι) (values : Values (columns j)) (id : ObjectId)
  | remove (j : ι) (values : Values (columns j)) (id : ObjectId)
  /-- A call on the store itself. -/
  | call (c : Call)

namespace IndexStep

variable (index : (j : ι) → TypedIndex (columns j))

def perform {σ : Type} [KeyValueStore σ] (s : σ) : IndexStep columns → σ
  | insert j values id => ((index j).insert values id s).2
  | remove j values id => ((index j).remove values id s).2
  | call c => (c.run s).2

def toCall : IndexStep columns → Call
  | insert j values id => .write (.put ((index j).key values id) [])
  | remove j values id => .write (.remove ((index j).key values id))
  | call c => c

/-- Steps on a store are the calls that they stand for. -/
theorem foldl_perform {σ : Type} [KeyValueStore σ] (steps : List (IndexStep columns)) (s : σ) :
    steps.foldl (perform index) s = (Call.replay (steps.map (toCall index)) s).2 := by
  induction steps generalizing s with
  | nil => rfl
  | cons step steps ih =>
    have hstep : perform index s step = ((step.toCall index).run s).2 := by
      cases step with
      | insert j values id => exact (congrArg Prod.snd (StoreM.map_apply _ _ s)).symm
      | remove j values id => exact (congrArg Prod.snd (StoreM.map_apply _ _ s)).symm
      | call c => rfl
    rw [List.foldl_cons, ih, hstep]
    rfl

/-- Values and an object have been inserted into an index and not removed from it since. -/
def Present (steps : List (IndexStep columns)) (j : ι) (values : Values (columns j)) (id : ObjectId) : Prop :=
  ∃ before after, steps = before ++ insert j values id :: after ∧ remove j values id ∉ after

variable {steps : List (IndexStep columns)} {step : IndexStep columns} {j : ι} {values : Values (columns j)}
  {id : ObjectId}

theorem present_insert : Present (steps ++ [insert j values id]) j values id :=
  ⟨steps, [], rfl, List.not_mem_nil⟩

theorem not_present_remove : ¬Present (steps ++ [remove j values id]) j values id := by
  rintro ⟨before, after, hsplit, hnot⟩
  rcases List.eq_nil_or_concat after with rfl | ⟨after, last, rfl⟩
  · obtain ⟨-, hlast⟩ := List.append_inj' hsplit rfl
    cases hlast
  · rw [List.concat_eq_append] at hsplit hnot
    rw [← List.cons_append, ← List.append_assoc] at hsplit
    obtain ⟨-, hlast⟩ := List.append_inj' hsplit rfl
    cases hlast
    exact hnot (List.mem_append_right _ (List.mem_singleton_self _))

/-- A step that does neither leaves it as it was. -/
theorem present_append (hinsert : step ≠ insert j values id) (hremove : step ≠ remove j values id) :
    Present (steps ++ [step]) j values id ↔ Present steps j values id := by
  constructor
  · rintro ⟨before, after, hsplit, hnot⟩
    rcases List.eq_nil_or_concat after with rfl | ⟨after, last, rfl⟩
    · obtain ⟨-, hlast⟩ := List.append_inj' hsplit rfl
      exact absurd (List.singleton_inj.1 hlast) hinsert
    · rw [List.concat_eq_append] at hsplit hnot
      rw [← List.cons_append, ← List.append_assoc] at hsplit
      obtain ⟨hsplit, -⟩ := List.append_inj' hsplit rfl
      exact ⟨before, after, hsplit, fun hmem => hnot (List.mem_append_left _ hmem)⟩
  · rintro ⟨before, after, rfl, hnot⟩
    refine ⟨before, after ++ [step], by simp, ?_⟩
    rw [List.mem_append, List.mem_singleton, not_or]
    exact ⟨hnot, fun he => hremove he.symm⟩

/-- A step that is no call, or a call that keeps off the keys of all indexes. -/
def Spares (index : (j : ι) → TypedIndex (columns j)) : IndexStep columns → Prop
  | call c => ∀ j k, (index j).info.keyPrefix <+: k → ¬c.Reaches k
  | _ => True

variable {index : (j : ι) → TypedIndex (columns j)} {m : Store}

/-- A step changes the keys of an index as it changes the set that they stand for. -/
theorem holds_perform (hids : ∀ i j, (index i).info.id = (index j).info.id → i = j) (hspares : step.Spares index)
    (h : ∀ j, (index j).Holds m (Present steps j)) (j : ι) :
    (index j).Holds (((step.toCall index).run m).2) (Present (steps ++ [step]) j) := by
  intro k v hk
  -- a step that is about another key, or another index, leaves the key and what it stands for as they are
  have hsame : ((step.toCall index).run m).2.get? k = m.get? k →
      (∀ values id, k = (index j).key values id → step ≠ insert j values id ∧ step ≠ remove j values id) →
      (((step.toCall index).run m).2.get? k = some v ↔
        v = [] ∧ ∃ values id, k = (index j).key values id ∧ Present (steps ++ [step]) j values id) := by
    intro hget hother
    rw [hget, h j k v hk]
    refine and_congr_right fun _ => exists_congr fun values => exists_congr fun id => and_congr_right fun hkey => ?_
    exact (present_append (hother values id hkey).1 (hother values id hkey).2).symm
  cases step with
  | insert j' values' id' =>
    have hget : (((insert j' values' id').toCall index).run m).2.get? k =
        if k = (index j').key values' id' then some [] else m.get? k := SortedMap.get?_insert ..
    by_cases hkey : k = (index j').key values' id'
    · obtain rfl : j = j' := hids j j' (TypedIndex.id_eq_of_isPrefix hk (hkey ▸ (index j').prefix_key values' id'))
      rw [hget, if_pos hkey]
      constructor
      · intro he
        cases he
        exact ⟨rfl, values', id', hkey, present_insert⟩
      · rintro ⟨rfl, -⟩
        rfl
    · refine hsame (hget.trans (if_neg hkey)) fun values id hk' => ⟨fun he => ?_, nofun⟩
      cases he
      exact hkey hk'
  | remove j' values' id' =>
    have hget : (((remove j' values' id').toCall index).run m).2.get? k =
        if k = (index j').key values' id' then none else m.get? k := SortedMap.get?_erase ..
    by_cases hkey : k = (index j').key values' id'
    · obtain rfl : j = j' := hids j j' (TypedIndex.id_eq_of_isPrefix hk (hkey ▸ (index j').prefix_key values' id'))
      rw [hget, if_pos hkey]
      constructor
      · intro he
        cases he
      · rintro ⟨-, values, id, hk', hpresent⟩
        cases TypedIndex.eq_of_key_eq (p := (values, id)) (q := (values', id')) (hk'.symm.trans hkey)
        exact absurd hpresent not_present_remove
    · refine hsame (hget.trans (if_neg hkey)) fun values id hk' => ⟨nofun, fun he => ?_⟩
      cases he
      exact hkey hk'
  | call c =>
    exact hsame (Call.get?_run_of_not_reaches (hspares j k hk) m) fun values id _ => ⟨nofun, nofun⟩

/-- After any steps the keys of each index stand for what is present in it. -/
theorem holds_replay (hids : ∀ i j, (index i).info.id = (index j).info.id → i = j)
    (hspares : ∀ step ∈ steps, step.Spares index)
    (hnone : ∀ j k, (index j).info.keyPrefix <+: k → m.get? k = none) (j : ι) :
    (index j).Holds (Call.replay (steps.map (toCall index)) m).2 (Present steps j) := by
  induction steps using List.reverseRecOn generalizing j with
  | nil =>
    intro k v hk
    rw [List.map_nil, Call.replay_nil, hnone j k hk]
    refine iff_of_false nofun ?_
    rintro ⟨-, values, id, -, before, after, hsplit, -⟩
    exact absurd hsplit.symm (by simp)
  | append_singleton steps step ih =>
    have hbefore := ih fun s hs => hspares s (List.mem_append_left _ hs)
    have hstep := holds_perform hids (hspares step (List.mem_append_right _ (List.mem_singleton_self _))) hbefore j
    rw [List.map_append, Call.replay_append]
    exact hstep

/-- Indexes are ordered sets. Take any number of indexes with different storage IDs on a plain store, or in an open
transaction, without keys of them, and any steps in which only the indexes write such keys. Then each index gives the
values and objects that have been inserted into it and not removed since, each once, in the order of the values and
then of the objects, and the same downwards; the objects with given values, in order; and whether it contains values
with an object. Nothing fails, unless the transaction has outlived its limit. -/
theorem reads_present (index : (j : ι) → TypedIndex (columns j))
    (hids : ∀ i j, (index i).info.id = (index j).info.id → i = j) (steps : List (IndexStep columns))
    (hspares : ∀ step ∈ steps, step.Spares index) :
    (∀ m : Store, (∀ j k, (index j).info.keyPrefix <+: k → m.get? k = none) →
      ∀ j, (index j).Reads (steps.foldl (perform index) m) (Present steps j)) ∧
    (∀ t : Transaction, t.expired? = none →
      (∀ j k, (index j).info.keyPrefix <+: k → t.view.get? k = none) →
      ∀ j, (index j).Reads (steps.foldl (perform index) t) (Present steps j)) ∧
    ∀ (t : Transaction) (limit : Nat), t.expired? = some limit →
      ∀ j, (index j).Refuses t (.retry (.timedOut limit)) := by
  refine ⟨?_, ?_, ?_⟩
  · intro m hnone j
    rw [foldl_perform]
    exact (holds_replay hids hspares hnone j).reads Store.downward_reading rfl (Nat.le_refl _) fun k => rfl
  · intro t hopen hnone j
    rw [foldl_perform]
    obtain ⟨u, hu⟩ : ∃ u, (Call.replay (steps.map (toCall index)) t).2 = u := ⟨_, rfl⟩
    have hshows := (Transaction.replay_shows hopen t.shows_contents (steps.map (toCall index))).2
    have hopen' : u.expired? = none := hu ▸ (Transaction.replay_extends _ t).expired?.trans hopen
    rw [hu] at hshows ⊢
    have hholds := holds_replay hids hspares (m := t.view.contents) (fun j k hk => by
      rw [← t.shows_contents k, hnone j k hk]) j
    refine hholds.reads u.downward_reading ⟨rfl, hopen', hshows⟩ (Transaction.size_le_entryCount hshows) fun k => ?_
    rw [Transaction.get?_apply hopen', hshows k]
  · exact fun t limit h j => (index j).refuses_of_expired h

/-- The string of one entry begins that of another, storage IDs are neighbours, a negative number is inserted,
removed and inserted again, and calls write and remove keys above those of the indexes. -/
theorem reads_present_neighbours :
    let columns : Bool → List ColumnType := fun j => if j then [.string, .long] else [.boolean, .reference]
    let index : (j : Bool) → TypedIndex (columns j) := fun j => ⟨⟨if j then 255 else 256, "byKey", 10, []⟩⟩
    let steps : List (IndexStep columns) := [.insert true ("a", -1, ()) 5, .insert true ("a\x00", -1, ()) 2,
      .call (.write (.put [255] [1])), .insert false (true, 9, ()) 1, .remove true ("a", -1, ()) 5,
      .call (.write (.removeRange [255] .top)), .insert true ("a", -1, ()) 7, .insert true ("a", -1, ()) 5]
    let s := steps.foldl (perform index) (Transaction.start 3 (SortedMap.empty.insert [7] [8]))
    (∀ j, (index j).Reads s (Present steps j)) ∧
      ((index true).objectsWith ("a", -1, ()) s).1.toOption = some [5, 7] := by
  intro columns index steps s
  have hids : ∀ i j, (index i).info.id = (index j).info.id → i = j := by decide
  have hfirst : ∀ j k, (index j).info.keyPrefix <+: k → ∃ rest, k = 0 :: 0 :: rest := by
    rintro j k ⟨rest, rfl⟩
    have htrue : (index true).info.keyPrefix = [0, 0, 0, 255] := by decide
    have hfalse : (index false).info.keyPrefix = [0, 0, 1, 0] := by decide
    cases j with
    | true => exact ⟨[0, 255] ++ rest, by rw [htrue]; rfl⟩
    | false => exact ⟨[1, 0] ++ rest, by rw [hfalse]; rfl⟩
  have hspares : ∀ step ∈ steps, step.Spares index := by
    simp only [steps, List.forall_mem_cons, Spares, Call.Reaches, true_and]
    refine ⟨fun j k hk he => ?_, fun j k hk hle => ?_, fun _ h => absurd h List.not_mem_nil⟩
    · obtain ⟨rest, hrest⟩ := hfirst j k hk
      rw [hrest] at he
      cases he
    · obtain ⟨rest, rfl⟩ := hfirst j k hk
      rcases List.cons_le_cons_iff.1 hle.1 with hlt | ⟨he, -⟩
      · exact absurd hlt (by decide)
      · exact absurd he (by decide)
  have hnone : ∀ j k, (index j).info.keyPrefix <+: k →
      (Transaction.start 3 (SortedMap.empty.insert [7] [8])).view.get? k = none := by
    intro j k hk
    obtain ⟨rest, rfl⟩ := hfirst j k hk
    rw [Transaction.start, Overlay.get?_ofStore, SortedMap.get?_insert, if_neg (by simp)]
    rfl
  exact ⟨(reads_present index hids steps hspares).2.1 _ rfl hnone, by decide +kernel⟩

end IndexStep

end Indexes

end Keyspace.Index
