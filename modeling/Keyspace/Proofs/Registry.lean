import Keyspace.Proofs.SortedMap
import Keyspace.Proofs.Validation

/-!
The use of storage IDs, item by item. An item is compared by what it is, whatever it belongs to, and a registry
stands for all items of its schema; so two registries agree just when any two items with one ID do.
-/
namespace Keyspace.Schema

/-! ## Compatibility -/

section

variable {α : Type} {p : α → α → Bool}

theorem pairwise_cons (a b : α) (as bs : List α) :
    pairwise p (a :: as) (b :: bs) = (p a b && pairwise p as bs) := by
  simp [pairwise, Bool.and_left_comm]

theorem pairwise_self (h : ∀ a, p a a = true) (as : List α) : pairwise p as as = true := by
  induction as with
  | nil => rfl
  | cons a as ih => rw [pairwise_cons, h, ih, Bool.and_self]

theorem pairwise_comm (h : ∀ a b, p a b = p b a) (as bs : List α) : pairwise p as bs = pairwise p bs as := by
  induction as generalizing bs with
  | nil => cases bs <;> rfl
  | cons a as ih =>
    cases bs with
    | nil => rfl
    | cons b bs => rw [pairwise_cons, pairwise_cons, h, ih]

end

theorem SimpleKind.compatible_self (k : SimpleKind) : k.compatible k = true := by
  cases k <;> simp [compatible]

theorem SimpleKind.compatible_comm (k l : SimpleKind) : k.compatible l = l.compatible k := by
  cases k <;> cases l <;> simp [compatible, Bool.beq_comm]

theorem SimpleField.compatible_self (f : SimpleField) : f.compatible f = true := by
  simp [compatible, SimpleKind.compatible_self]

theorem SimpleField.compatible_comm (f g : SimpleField) : f.compatible g = g.compatible f := by
  rw [compatible, compatible, SimpleKind.compatible_comm, Bool.beq_comm (a := f.id),
    Bool.beq_comm (a := f.indexed)]

theorem Field.compatible_self (f : Field) : f.compatible f = true := by
  cases f with
  | simple f => exact f.compatible_self
  | counter f => simp [compatible]
  | complex f => simp [compatible, pairwise_self SimpleField.compatible_self]

theorem Field.compatible_comm (f g : Field) : f.compatible g = g.compatible f := by
  cases f <;> cases g <;> try rfl
  · exact SimpleField.compatible_comm ..
  · exact Bool.beq_comm
  · next f g =>
    rw [compatible, compatible, pairwise_comm SimpleField.compatible_comm, Bool.beq_comm (a := f.id),
      Bool.beq_comm (a := f.collection)]

theorem CompositeIndex.compatible_self (i : CompositeIndex) : i.compatible i = true := by
  simp [compatible]

theorem CompositeIndex.compatible_comm (i j : CompositeIndex) : i.compatible j = j.compatible i := by
  rw [compatible, compatible, Bool.beq_comm (a := i.id), Bool.beq_comm (a := i.fields)]

theorem compatibleMaps_self {α : Type} {p : α → α → Bool} (h : ∀ a, p a a = true)
    (m : SortedMap StorageId α) : compatibleMaps p m m = true :=
  pairwise_self (fun e => by simp [h]) _

theorem ObjectType.compatible_self (t : ObjectType) : t.compatible t = true := by
  simp [compatible, compatibleMaps_self Field.compatible_self,
    compatibleMaps_self CompositeIndex.compatible_self]

theorem Model.compatible_self (m : Model) : m.compatible m = true :=
  compatibleMaps_self ObjectType.compatible_self _

/-! ## Items -/

/-- What an item is, apart from the items that it belongs to. -/
inductive Use where
  | objectType (t : ObjectType)
  | field (f : Field)
  | index (i : CompositeIndex)

def Item.use : Item → Use
  | objectType t => .objectType t
  | field _ f => .field f
  | subField _ _ f => .field (.simple f)
  | index _ i => .index i

namespace Use

def consistent : Use → Use → Bool
  | objectType _, objectType _ => true
  | field f, field g => f.compatible g
  | index i, index j => i.compatible j
  | _, _ => false

theorem consistent_self (u : Use) : u.consistent u = true := by
  cases u with
  | objectType t => rfl
  | field f => exact f.compatible_self
  | index i => exact i.compatible_self

theorem consistent_comm (u v : Use) : u.consistent v = v.consistent u := by
  cases u <;> cases v <;> try rfl
  · exact Field.compatible_comm ..
  · exact CompositeIndex.compatible_comm ..

end Use

namespace Item

theorem same_iff {a b : Item} : a.same b = true ↔ a.use = b.use := by
  cases a <;> cases b <;> simp [same, use, simple?, Field.simple?]
  case field.subField f _ _ _ => cases f <;> simp
  case subField.field f _ g => cases g <;> simp

theorem consistent_eq (a b : Item) : a.consistent b = a.use.consistent b.use := by
  cases a <;> cases b <;> try rfl
  case field.objectType f _ => cases f <;> rfl
  case field.subField f _ _ _ => cases f <;> rfl
  case field.index f _ _ => cases f <;> rfl
  case subField.field f _ g => cases g <;> rfl

end Item

/-! ## Registries -/

namespace Registry

variable {r s : Registry}

/-- A registry keeps for each registered item the first one with the same ID, which is the same item. -/
def Stands (r : Registry) (item : Item) : Prop := ∃ x, r.get? item.id = some x ∧ x.use = item.use

/-- An item that has been registered stands, and so does every other one that stood before. -/
theorem register_stands {item : Item} (h : r.register item = .ok s) :
    s.Stands item ∧ ∀ x, r.Stands x → s.Stands x := by
  unfold register at h
  split at h
  · next hnone =>
    cases h
    refine ⟨⟨item, SortedMap.get?_insert_self .., rfl⟩, fun x ⟨y, hy, huse⟩ => ⟨y, ?_, huse⟩⟩
    have hne : x.id ≠ item.id := fun he => by rw [he, hnone] at hy; cases hy
    exact (SortedMap.get?_insert ..).trans ((if_neg hne).trans hy)
  · next existing hsome =>
    split at h
    · next hsame =>
      cases h
      exact ⟨⟨existing, hsome, Item.same_iff.1 hsame⟩, fun _ hx => hx⟩
    · cases h

/-- Registering an item adds nothing but the item. -/
theorem get?_of_register {item x : Item} {id : StorageId} (h : r.register item = .ok s) (hx : s.get? id = some x) :
    r.get? id = some x ∨ (id = item.id ∧ x = item) := by
  unfold register at h
  split at h
  · cases h
    exact (SortedMap.get?_insert_cases hx).symm
  · split at h
    · cases h
      exact .inl hx
    · cases h

/-- All the items of a list stand once they have been registered. -/
theorem foldlM_register_stands {items : List Item} (h : items.foldlM register r = .ok s) :
    (∀ x ∈ items, s.Stands x) ∧ ∀ x, r.Stands x → s.Stands x := by
  induction items generalizing r with
  | nil =>
    cases h
    exact ⟨fun x hx => absurd hx List.not_mem_nil, fun _ hx => hx⟩
  | cons item items ih =>
    obtain ⟨r', hitem, hrest⟩ := exists_of_bind_eq_ok h
    obtain ⟨hthis, hmono⟩ := register_stands hitem
    obtain ⟨hitems, hmono'⟩ := ih hrest
    refine ⟨?_, fun x hx => hmono' x (hmono x hx)⟩
    intro x hx
    rcases List.mem_cons.1 hx with rfl | hx
    · exact hmono' _ hthis
    · exact hitems x hx

theorem stands_of_ofModel {m : Model} (h : ofModel m = .ok r) {item : Item} (hitem : item ∈ m.items) :
    r.Stands item := by
  obtain ⟨s, hs, h⟩ := exists_of_bind_eq_ok h
  obtain ⟨⟨⟩, -, h⟩ := exists_of_bind_eq_ok h
  cases h
  exact (foldlM_register_stands hs).1 item hitem

/-- The registry of a model holds items of the model under their own IDs. -/
theorem mem_items_of_ofModel {m : Model} (h : ofModel m = .ok r) {id : StorageId} {x : Item}
    (hx : r.get? id = some x) : x ∈ m.items ∧ x.id = id := by
  obtain ⟨s, hs, h⟩ := exists_of_bind_eq_ok h
  obtain ⟨⟨⟩, -, h⟩ := exists_of_bind_eq_ok h
  cases h
  refine foldlM_preserves (p := fun r => ∀ id x, r.get? id = some x → x ∈ m.items ∧ x.id = id)
    (fun r item s hitem hr hregister id x hx => ?_) (fun id x hnone => by cases hnone) hs id x hx
  rcases get?_of_register hregister hx with hx | ⟨rfl, rfl⟩
  · exact hr id x hx
  · exact ⟨hitem, rfl⟩

/-- Items that have been registered and share an ID are the same. -/
theorem Stands.use_eq {a b : Item} (ha : r.Stands a) (hb : r.Stands b) (hid : a.id = b.id) : a.use = b.use := by
  obtain ⟨x, hx, hxa⟩ := ha
  obtain ⟨y, hy, hyb⟩ := hb
  rw [hid, hy, Option.some.injEq] at hx
  rw [← hxa, ← hyb, hx]

structure Clash (r s : Registry) (id : StorageId) (x y : Item) : Prop where
  left : r.get? id = some x
  right : s.get? id = some y
  inconsistent : x.consistent y = false

/-- The check of an entry of one registry against another. -/
def checkEntry (s : Registry) (e : StorageId × Item) : Except SchemaError Unit :=
  match s.get? e.1 with
  | none => .ok ()
  | some existing =>
    if e.2.consistent existing then .ok ()
    else .error (.storageIdConflict e.1 existing.describe e.2.describe)

theorem checkConsistent_eq : r.checkConsistent s = r.items.toList.forM (checkEntry s) := rfl

/-- An entry fails only by a clash. -/
theorem checkEntry_cases {id : StorageId} {x : Item} (hx : r.get? id = some x) :
    (checkEntry s (id, x) = .ok () ∧ ∀ y, ¬r.Clash s id x y) ∨
      ∃ y, r.Clash s id x y ∧ checkEntry s (id, x) = .error (.storageIdConflict id y.describe x.describe) := by
  rw [checkEntry]
  cases hy : s.get? id with
  | none => exact .inl ⟨rfl, fun y h => nomatch hy.symm.trans h.right⟩
  | some y =>
    cases hconsistent : x.consistent y with
    | false => exact .inr ⟨y, ⟨hx, hy, hconsistent⟩, if_neg (Bool.eq_false_iff.1 hconsistent)⟩
    | true =>
      refine .inl ⟨if_pos hconsistent, fun z h => ?_⟩
      obtain rfl : y = z := Option.some.inj (hy.symm.trans h.right)
      exact Bool.false_ne_true (h.inconsistent.symm.trans hconsistent)

/-- The check of two registries succeeds just if nothing clashes. -/
theorem checkConsistent_eq_ok_iff : r.checkConsistent s = .ok () ↔ ∀ id x y, ¬r.Clash s id x y := by
  rw [checkConsistent_eq, forM_eq_ok_iff]
  constructor
  · intro h id x y hclash
    rcases checkEntry_cases (s := s) hclash.left with ⟨-, hnot⟩ | ⟨z, -, hfails⟩
    · exact hnot y hclash
    · rw [h _ (SortedMap.mem_toList_iff.2 hclash.left)] at hfails
      cases hfails
  · rintro h ⟨id, x⟩ hmem
    rcases checkEntry_cases (s := s) (SortedMap.mem_toList_iff.1 hmem) with ⟨hok, -⟩ | ⟨y, hclash, -⟩
    · exact hok
    · exact absurd hclash (h id x y)

/-- The walk over a registry fails at the least ID of a clash, since it goes by IDs. -/
theorem exists_least_clash {why : SchemaError} (h : r.checkConsistent s = .error why) :
    ∃ id x y, r.Clash s id x y ∧ why = .storageIdConflict id y.describe x.describe ∧
      ∀ id' x' y', r.Clash s id' x' y' → id ≤ id' := by
  obtain ⟨before, ⟨id, x⟩, after, hsplit, hbefore, hfails⟩ := exists_first_of_forM_eq_error h
  have hget : ∀ {e}, e ∈ before ++ (id, x) :: after → r.get? e.1 = some e.2 := fun he =>
    SortedMap.mem_toList_iff.1 (hsplit ▸ he)
  have hx : r.get? id = some x := hget (List.mem_append_right _ List.mem_cons_self)
  rcases checkEntry_cases (s := s) hx with ⟨hok, -⟩ | ⟨y, hclash, hwhy⟩
  · cases hok.symm.trans hfails
  refine ⟨id, x, y, hclash, Except.error.inj (hfails.symm.trans hwhy), fun id' x' y' hclash' => ?_⟩
  have hmem : (id', x') ∈ before ++ (id, x) :: after := hsplit ▸ SortedMap.mem_toList_iff.2 hclash'.left
  rcases List.mem_append.1 hmem with hmem | hmem
  · -- What was checked before does not clash.
    rcases checkEntry_cases (s := s) hclash'.left with ⟨-, hnot⟩ | ⟨z, -, hfails'⟩
    · exact absurd hclash' (hnot y')
    · cases (hbefore _ hmem).symm.trans hfails'
  · rcases List.mem_cons.1 hmem with heq | hmem
    · cases heq
      exact UInt32.le_refl _
    · have hascending : (before ++ (id, x) :: after).Pairwise fun a b => a.1 < b.1 := hsplit ▸ r.items.ascending
      have hlater := (List.pairwise_cons.1 (List.pairwise_append.1 hascending).2.1).1 _ hmem
      exact UInt32.le_of_lt hlater

/-- Registries that agree stand for items that agree. -/
theorem consistent_of_checkConsistent (h : r.checkConsistent s = .ok ()) {a b : Item} (ha : r.Stands a)
    (hb : s.Stands b) (hid : a.id = b.id) : a.consistent b = true := by
  obtain ⟨x, hx, hxa⟩ := ha
  obtain ⟨y, hy, hyb⟩ := hb
  rw [Item.consistent_eq, ← hxa, ← hyb, ← Item.consistent_eq]
  cases hconsistent : x.consistent y with
  | true => rfl
  | false => exact absurd ⟨hid ▸ hx, hy, hconsistent⟩ (checkConsistent_eq_ok_iff.1 h b.id x y)

end Registry

/-- Whether two schemas use each storage ID that they share for items that agree. -/
def Model.Consistent (m n : Model) : Prop :=
  ∀ a ∈ m.items, ∀ b ∈ n.items, a.id = b.id → a.consistent b = true

namespace Model

variable {m n : Model}

theorem Consistent.symm (h : m.Consistent n) : n.Consistent m := fun a ha b hb hid => by
  rw [Item.consistent_eq, Use.consistent_comm, ← Item.consistent_eq]
  exact h b hb a ha hid.symm

/-- A schema with a registry agrees with itself. -/
theorem consistent_self (h : m.Valid) : m.Consistent m := by
  obtain ⟨r, hr⟩ := h.registry
  intro a ha b hb hid
  have hsame := (Registry.stands_of_ofModel hr ha).use_eq (Registry.stands_of_ofModel hr hb) hid
  rw [Item.consistent_eq, hsame, Use.consistent_self]

end Model

/-- Registries that do not agree conflict about two items of their models. -/
theorem Registry.exists_conflict {r s : Registry} {m n : Model} (hr : ofModel m = .ok r) (hs : ofModel n = .ok s)
    {why : SchemaError} (h : r.checkConsistent s = .error why) : ∃ a ∈ m.items, ∃ b ∈ n.items,
      a.id = b.id ∧ a.consistent b = false ∧ why = .storageIdConflict a.id b.describe a.describe := by
  obtain ⟨id, a, b, hclash, hwhy, -⟩ := exists_least_clash h
  obtain ⟨ha, rfl⟩ := mem_items_of_ofModel hr hclash.left
  obtain ⟨hb, hid⟩ := mem_items_of_ofModel hs hclash.right
  exact ⟨a, ha, b, hb, hid.symm, hclash.inconsistent, hwhy⟩

end Keyspace.Schema
