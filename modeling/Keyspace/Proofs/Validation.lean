import Keyspace.Schema.Validation
import Mathlib.Algebra.Group.Nat.Defs

/-!
What the checks of a schema accept. Names, storage IDs, fields, indexes and object types pass their checks just when
they are well formed; and a valid schema keeps its items under their own IDs and has a registry.
-/
namespace Keyspace

/-! ## Chains of checks -/

/-- A chain of checks that succeeds has succeeded at its first one, too. -/
theorem exists_of_bind_eq_ok {ε α β : Type} {x : Except ε α} {f : α → Except ε β} {b : β}
    (h : (x >>= f) = .ok b) : ∃ a, x = .ok a ∧ f a = .ok b := by
  cases x with
  | error why => cases h
  | ok a => exact ⟨a, rfl, h⟩

theorem ok_bind {ε α β : Type} (a : α) (f : α → Except ε β) : ((.ok a : Except ε α) >>= f) = f a := rfl

section

variable {ε α β : Type} {b : β}

theorem bind_eq_ok_iff {x : Except ε Unit} {f : Unit → Except ε β} :
    (x >>= f) = .ok b ↔ x = .ok () ∧ f () = .ok b := by
  cases x with
  | error why => exact ⟨nofun, nofun⟩
  | ok => exact (and_iff_right rfl).symm

/-- A fault that is looked for must not be there. -/
theorem guard_eq_ok_iff {c : Prop} [Decidable c] {why : ε} {f : Unit → Except ε β} :
    (if c then throw why >>= f else f ()) = .ok b ↔ ¬c ∧ f () = .ok b := by
  by_cases h : c
  · rw [if_pos h]
    exact ⟨nofun, fun hc => absurd h hc.1⟩
  · rw [if_neg h, and_iff_right h]

theorem throw_eq_ok_iff {c : Prop} [Decidable c] {why : ε} :
    (if c then throw why else pure () : Except ε Unit) = .ok () ↔ ¬c := by
  by_cases h : c
  · rw [if_pos h]
    exact iff_of_false nofun (not_not_intro h)
  · rw [if_neg h]
    exact iff_of_true rfl h

theorem ite_eq_ok_iff {c : Prop} [Decidable c] {why : ε} :
    (if c then .ok () else .error why : Except ε Unit) = .ok () ↔ c := by
  by_cases h : c
  · rw [if_pos h]
    exact iff_of_true rfl h
  · rw [if_neg h]
    exact iff_of_false nofun h

theorem forM_eq_ok_iff {check : α → Except ε Unit} {as : List α} :
    as.forM check = .ok () ↔ ∀ a ∈ as, check a = .ok () := by
  induction as with
  | nil => exact iff_of_true rfl nofun
  | cons a as ih =>
    rw [List.forall_mem_cons, ← ih]
    exact bind_eq_ok_iff

/-- A loop of checks fails as the first of them that fails. -/
theorem exists_first_of_forM_eq_error {check : α → Except ε Unit} {as : List α} {why : ε}
    (h : as.forM check = .error why) :
    ∃ before a after, as = before ++ a :: after ∧ (∀ b ∈ before, check b = .ok ()) ∧ check a = .error why := by
  induction as with
  | nil => cases h
  | cons a as ih =>
    have hchain : (check a >>= fun _ => as.forM check) = .error why := h
    cases ha : check a with
    | error other =>
      rw [ha] at hchain
      exact ⟨[], a, as, rfl, nofun, ha.trans hchain⟩
    | ok =>
      rw [ha, ok_bind] at hchain
      obtain ⟨before, b, after, rfl, hbefore, hwhy⟩ := ih hchain
      exact ⟨a :: before, b, after, rfl, List.forall_mem_cons.2 ⟨ha, hbefore⟩, hwhy⟩

theorem exists_of_forM_eq_error {check : α → Except ε Unit} {as : List α} {why : ε}
    (h : as.forM check = .error why) : ∃ a ∈ as, check a = .error why := by
  obtain ⟨before, a, after, rfl, -, hwhy⟩ := exists_first_of_forM_eq_error h
  exact ⟨a, List.mem_append_right _ List.mem_cons_self, hwhy⟩

theorem exists_mapM_eq_ok {f : α → Except ε β} {as : List α} (h : ∀ a ∈ as, ∃ b, f a = .ok b) :
    ∃ bs, as.mapM f = .ok bs := by
  induction as with
  | nil => exact ⟨[], rfl⟩
  | cons a as ih =>
    obtain ⟨⟨b, hb⟩, has⟩ := List.forall_mem_cons.1 h
    obtain ⟨bs, hbs⟩ := ih has
    exact ⟨b :: bs, by rw [List.mapM_cons, hb, ok_bind, hbs, ok_bind]; rfl⟩

/-- What holds at first and is kept by each turn of a loop holds in the end. -/
theorem foldlM_preserves {p : β → Prop} {f : β → α → Except ε β} {as : List α}
    (hstep : ∀ s a s', a ∈ as → p s → f s a = .ok s' → p s') {s s' : β} (hs : p s)
    (h : as.foldlM f s = .ok s') : p s' := by
  induction as generalizing s with
  | nil =>
    cases h
    exact hs
  | cons a as ih =>
    obtain ⟨t, hfirst, hrest⟩ := exists_of_bind_eq_ok h
    exact ih (fun s b s' hb => hstep s b s' (List.mem_cons_of_mem _ hb))
      (hstep s a t List.mem_cons_self hs hfirst) hrest

theorem exists_foldlM_eq_ok {f : β → α → Except ε β} {as : List α} (h : ∀ a ∈ as, ∀ s, ∃ s', f s a = .ok s') (s : β) :
    ∃ s', as.foldlM f s = .ok s' := by
  induction as generalizing s with
  | nil => exact ⟨s, rfl⟩
  | cons a as ih =>
    obtain ⟨ha, has⟩ := List.forall_mem_cons.1 h
    obtain ⟨t, ht⟩ := ha s
    rw [List.foldlM_cons, ht, ok_bind]
    exact ih has t

/-- No element comes twice, and none is among those seen before. -/
def Fresh (seen as : List α) : Prop := as.Nodup ∧ ∀ a ∈ as, a ∉ seen

theorem fresh_cons {seen as : List α} {a : α} : Fresh seen (a :: as) ↔ a ∉ seen ∧ Fresh (a :: seen) as := by
  simp only [Fresh, List.nodup_cons, List.mem_cons, not_or, forall_eq_or_imp]
  constructor
  · rintro ⟨⟨ha, hnodup⟩, hseen, hfresh⟩
    exact ⟨hseen, hnodup, fun x hx => ⟨fun he => ha (he ▸ hx), hfresh x hx⟩⟩
  · rintro ⟨hseen, hnodup, hfresh⟩
    exact ⟨⟨fun ha => (hfresh a ha).1 rfl, hnodup⟩, hseen, fun x hx => (hfresh x hx).2⟩

theorem fresh_nil {seen : List α} : Fresh seen [] := ⟨.nil, nofun⟩

theorem fresh_iff_nodup {as : List α} : Fresh [] as ↔ as.Nodup := and_iff_left fun _ _ => List.not_mem_nil

end

namespace Schema

/-! ## Names and storage IDs -/

def IsLetter (c : Char) : Prop := ('A' ≤ c ∧ c ≤ 'Z') ∨ ('a' ≤ c ∧ c ≤ 'z')

def IsDigit (c : Char) : Prop := '0' ≤ c ∧ c ≤ '9'

/-- A name is not empty, has ASCII letters, digits, underscores and dollar signs, and does not start with a digit. -/
structure IsName (name : String) : Prop where
  nonempty : name.toList ≠ []
  chars : ∀ c ∈ name.toList, IsLetter c ∨ IsDigit c ∨ c = '_' ∨ c = '$'
  start : ∀ c ∈ name.toList.head?, ¬IsDigit c

def IsStorageId (id : StorageId) : Prop := 1 ≤ id.toNat ∧ id.toNat ≤ 2 ^ 31 - 1

theorem isAlpha_iff {c : Char} : c.isAlpha = true ↔ IsLetter c := by
  have hupper : c.isUpper = decide ('A' ≤ c ∧ c ≤ 'Z') := rfl
  have hlower : c.isLower = (decide ('a' ≤ c) && decide (c ≤ 'z')) := rfl
  rw [show c.isAlpha = (c.isUpper || c.isLower) from rfl, hupper, hlower, Bool.or_eq_true, Bool.and_eq_true,
    decide_eq_true_eq, decide_eq_true_eq, decide_eq_true_eq, IsLetter]

theorem startsName_iff {c : Char} : startsName c = true ↔ (IsLetter c ∨ c = '_' ∨ c = '$') := by
  rw [startsName, Bool.or_eq_true, Bool.or_eq_true, isAlpha_iff, beq_iff_eq, beq_iff_eq, or_assoc]

theorem isDigit_iff {c : Char} : c.isDigit = true ↔ IsDigit c := by
  rw [Char.isDigit, Bool.and_eq_true, decide_eq_true_eq, decide_eq_true_eq]
  rfl

theorem continuesName_iff {c : Char} : continuesName c = true ↔ IsLetter c ∨ IsDigit c ∨ c = '_' ∨ c = '$' := by
  rw [continuesName, Bool.or_eq_true, startsName_iff, isDigit_iff, or_assoc, or_comm (b := IsDigit c)]

/-- Digits are what a name may go on with but not start with. -/
theorem startsName_iff_not_isDigit {c : Char} (h : continuesName c = true) :
    startsName c = true ↔ ¬IsDigit c := by
  have hdisjoint : startsName c = true → ¬IsDigit c := by
    rw [startsName_iff]
    rintro ((⟨hlow, -⟩ | ⟨hlow, -⟩) | rfl | rfl) ⟨hdigit, hhigh⟩
    · exact absurd (Char.le_trans hlow hhigh) (by decide)
    · exact absurd (Char.le_trans hlow hhigh) (by decide)
    · exact absurd hhigh (by decide)
    · exact absurd hdigit (by decide)
  refine ⟨hdisjoint, fun hdigit => ?_⟩
  rw [continuesName, Bool.or_eq_true, isDigit_iff] at h
  exact h.resolve_right hdigit

/-- The check of a name passes just the names. -/
theorem isValidName_iff {name : String} : isValidName name = true ↔ IsName name := by
  rw [isValidName]
  cases hchars : name.toList with
  | nil => exact iff_of_false nofun fun h => h.nonempty hchars
  | cons c cs =>
    rw [Bool.and_eq_true, List.all_eq_true]
    constructor
    · rintro ⟨hstart, hrest⟩
      have hc : continuesName c = true := by rw [continuesName, hstart, Bool.true_or]
      refine ⟨by simp [hchars], ?_, ?_⟩
      · rw [hchars]
        exact List.forall_mem_cons.2 ⟨continuesName_iff.1 hc, fun x hx => continuesName_iff.1 (hrest x hx)⟩
      · rw [hchars]
        rintro _ ⟨⟩
        exact (startsName_iff_not_isDigit hc).1 hstart
    · intro h
      have hall := h.chars
      have hstart := h.start
      rw [hchars] at hall hstart
      obtain ⟨hc, hrest⟩ := List.forall_mem_cons.1 hall
      exact ⟨(startsName_iff_not_isDigit (continuesName_iff.2 hc)).2 (hstart c rfl),
        fun x hx => continuesName_iff.2 (hrest x hx)⟩

theorem checkName_iff {name what : String} : checkName name what = .ok () ↔ IsName name := by
  rw [checkName, ite_eq_ok_iff, isValidName_iff]

theorem checkStorageId_iff {id : StorageId} {what : String} : checkStorageId id what = .ok () ↔ IsStorageId id := by
  rw [checkStorageId, ite_eq_ok_iff, UInt32.le_iff_toNat_le, UInt32.le_iff_toNat_le]
  rfl

/-! ## Fields -/

/-- What makes up a value, a reference or an enumeration. -/
def SimpleKind.WellFormed : SimpleKind → Prop
  | value typeName _ => ∃ c ∈ typeName.toList, Text.isBlank c = false
  | reference _ _ _ restriction => ∀ ids ∈ restriction, ∀ id ∈ ids.keys, IsStorageId id
  | enumeration identifiers => (∀ word ∈ identifiers, IsName word) ∧ identifiers.Nodup

structure SimpleField.WellFormed (f : SimpleField) : Prop where
  name : IsName f.name
  id : IsStorageId f.id
  kind : f.kind.WellFormed

structure CounterField.WellFormed (f : CounterField) : Prop where
  name : IsName f.name
  id : IsStorageId f.id

/-- A collection has the sub-fields of its sort, in order, none with the ID of the whole. -/
structure ComplexField.WellFormed (f : ComplexField) : Prop where
  name : IsName f.name
  id : IsStorageId f.id
  subFieldNames : f.subFields.map (·.name) = f.collection.subFieldNames
  subFields : ∀ s ∈ f.subFields, s.WellFormed ∧ s.id ≠ f.id

theorem ComplexField.WellFormed.length_subFields {f : ComplexField} (h : f.WellFormed) :
    f.subFields.length = f.collection.subFieldNames.length := by
  rw [← h.subFieldNames, List.length_map]

def Field.WellFormed : Field → Prop
  | simple f => f.WellFormed
  | counter f => f.WellFormed
  | complex f => f.WellFormed

theorem checkIdentifiers_iff {what : String} {seen words : List String} :
    checkIdentifiers what seen words = .ok () ↔ (∀ word ∈ words, IsName word) ∧ Fresh seen words := by
  induction words generalizing seen with
  | nil => exact iff_of_true rfl ⟨nofun, fresh_nil⟩
  | cons word words ih =>
    rw [checkIdentifiers, bind_eq_ok_iff, guard_eq_ok_iff, checkName_iff, ih, List.forall_mem_cons, fresh_cons,
      List.contains_iff_mem]
    exact ⟨fun ⟨hword, hseen, hwords, hfresh⟩ => ⟨⟨hword, hwords⟩, hseen, hfresh⟩,
      fun ⟨⟨hword, hwords⟩, hseen, hfresh⟩ => ⟨hword, hseen, hwords, hfresh⟩⟩

/-- The check of a kind passes just what is well formed. -/
theorem SimpleKind.validate_iff {what : String} {k : SimpleKind} : k.validate what = .ok () ↔ k.WellFormed := by
  cases k with
  | value typeName signature =>
    rw [validate, WellFormed, Text.allBlank]
    cases hblank : typeName.toList.all Text.isBlank with
    | true =>
      refine iff_of_false nofun ?_
      rintro ⟨c, hc, hnot⟩
      simp [List.all_eq_true.1 hblank c hc] at hnot
    | false => exact iff_of_true rfl (by simpa using hblank)
  | reference action cascade allow restriction =>
    cases restriction with
    | none => exact iff_of_true rfl nofun
    | some ids =>
      rw [validate, WellFormed, forM_eq_ok_iff]
      simp only [checkStorageId_iff, Option.mem_some_iff, forall_eq']
  | enumeration identifiers => rw [validate, WellFormed, checkIdentifiers_iff, fresh_iff_nodup]

theorem SimpleField.validate_iff {f : SimpleField} : f.validate = .ok () ↔ f.WellFormed := by
  rw [validate, bind_eq_ok_iff, bind_eq_ok_iff, checkName_iff, checkStorageId_iff, SimpleKind.validate_iff]
  exact ⟨fun ⟨hname, hid, hkind⟩ => ⟨hname, hid, hkind⟩, fun ⟨hname, hid, hkind⟩ => ⟨hname, hid, hkind⟩⟩

theorem ComplexField.validate_iff {f : ComplexField} : f.validate = .ok () ↔ f.WellFormed := by
  rw [validate, bind_eq_ok_iff, bind_eq_ok_iff, guard_eq_ok_iff, forM_eq_ok_iff, checkName_iff, checkStorageId_iff,
    bne_iff_ne, ne_eq, Classical.not_not]
  simp only [bind_eq_ok_iff, throw_eq_ok_iff, SimpleField.validate_iff]
  exact ⟨fun ⟨hname, hid, hnames, hsub⟩ => ⟨hname, hid, hnames, hsub⟩,
    fun ⟨hname, hid, hnames, hsub⟩ => ⟨hname, hid, hnames, hsub⟩⟩

theorem Field.validate_iff {f : Field} : f.validate = .ok () ↔ f.WellFormed := by
  cases f with
  | simple f => exact SimpleField.validate_iff
  | counter f =>
    rw [validate, bind_eq_ok_iff, checkName_iff, checkStorageId_iff]
    exact ⟨fun ⟨hname, hid⟩ => ⟨hname, hid⟩, fun ⟨hname, hid⟩ => ⟨hname, hid⟩⟩
  | complex f => exact ComplexField.validate_iff

/-! ## Indexes and object types -/

theorem checkIndexFields_iff {what : String} {seen ids : List StorageId} :
    checkIndexFields what seen ids = .ok () ↔ Fresh seen ids := by
  induction ids generalizing seen with
  | nil => exact iff_of_true rfl fresh_nil
  | cons id ids ih =>
    rw [checkIndexFields, fresh_cons, ← List.contains_iff_mem, ← ih]
    cases seen.contains id with
    | true => exact iff_of_false nofun fun h => h.1 rfl
    | false => exact (and_iff_right Bool.false_ne_true).symm

/-- What an index is checked for apart from its object type. -/
theorem CompositeIndex.validate_iff {i : CompositeIndex} :
    i.validate = .ok () ↔ IsName i.name ∧ IsStorageId i.id ∧
      (2 ≤ i.fields.length ∧ i.fields.length ≤ 4) ∧ i.fields.Nodup := by
  rw [validate, bind_eq_ok_iff, bind_eq_ok_iff, guard_eq_ok_iff, checkName_iff, checkStorageId_iff,
    checkIndexFields_iff, fresh_iff_nodup, not_or, Nat.not_lt, Nat.not_lt]
  rfl

theorem CompositeIndex.id_le_of_validate {i : CompositeIndex} (h : i.validate = .ok ()) : i.id ≤ maxStorageId :=
  UInt32.le_iff_toNat_le.2 (validate_iff.1 h).2.1.2

theorem checkKey_iff {key id : StorageId} {item : String} : checkKey key id item = .ok () ↔ key = id := by
  rw [checkKey, ite_eq_ok_iff]

/-- Items pass in a row if each does and no name comes twice. -/
theorem checkAll_iff {α : Type} {check : StorageId → α → Except SchemaError Unit} {name : α → String}
    {duplicate : String → Duplicate} {seen : List String} {items : List (StorageId × α)} :
    checkAll check name duplicate seen items = .ok () ↔
      (∀ e ∈ items, check e.1 e.2 = .ok ()) ∧ Fresh seen (items.map fun e => name e.2) := by
  induction items generalizing seen with
  | nil => exact iff_of_true rfl ⟨nofun, fresh_nil⟩
  | cons e items ih =>
    rw [checkAll, bind_eq_ok_iff, guard_eq_ok_iff, ih, List.forall_mem_cons, List.map_cons, fresh_cons,
      List.contains_iff_mem]
    exact ⟨fun ⟨he, hseen, hitems, hfresh⟩ => ⟨⟨he, hitems⟩, hseen, hfresh⟩,
      fun ⟨⟨he, hitems⟩, hseen, hfresh⟩ => ⟨he, hseen, hitems, hfresh⟩⟩

/-- The values of a map that all pass are kept under their own IDs. -/
theorem checkAll_keyed_iff {α : Type} {m : SortedMap StorageId α} {id : α → StorageId} {item : α → String}
    {check : α → Except SchemaError Unit} {name : α → String} {duplicate : String → Duplicate} :
    checkAll (fun key a => checkKey key (id a) (item a) >>= fun _ => check a) name duplicate [] m.toList = .ok () ↔
      (∀ e ∈ m.toList, e.1 = id e.2) ∧ (∀ a ∈ m.values, check a = .ok ()) ∧ (m.values.map name).Nodup := by
  rw [checkAll_iff, fresh_iff_nodup, SortedMap.values, List.map_map, List.forall_mem_map]
  simp only [bind_eq_ok_iff, checkKey_iff, imp_and, forall_and, and_assoc]
  rfl

theorem ObjectType.validate_iff {t : ObjectType} : t.validate = .ok () ↔
    IsName t.name ∧ IsStorageId t.id ∧
      ((∀ e ∈ t.fields.toList, e.1 = e.2.id) ∧ (∀ f ∈ t.fields.values, f.validate = .ok ()) ∧
        (t.fields.values.map (·.name)).Nodup) ∧
      (∀ e ∈ t.indexes.toList, e.1 = e.2.id) ∧ (∀ i ∈ t.indexes.values, i.validate = .ok ()) ∧
        (t.indexes.values.map (·.name)).Nodup := by
  rw [validate, bind_eq_ok_iff, bind_eq_ok_iff, bind_eq_ok_iff, checkName_iff, checkStorageId_iff]
  exact and_congr_right' (and_congr_right' (and_congr checkAll_keyed_iff checkAll_keyed_iff))

structure ObjectType.Valid (t : ObjectType) : Prop where
  field_key : ∀ e ∈ t.fields.toList, e.1 = e.2.id
  field : ∀ e ∈ t.fields.toList, e.2.validate = .ok ()
  index_key : ∀ e ∈ t.indexes.toList, e.1 = e.2.id
  index : ∀ e ∈ t.indexes.toList, e.2.validate = .ok ()

theorem ObjectType.valid_of_validate {t : ObjectType} (h : t.validate = .ok ()) : t.Valid := by
  obtain ⟨-, -, ⟨hfieldKeys, hfields, -⟩, hindexKeys, hindexes, -⟩ := validate_iff.1 h
  exact ⟨hfieldKeys, fun e he => hfields e.2 (List.mem_map_of_mem he), hindexKeys,
    fun e he => hindexes e.2 (List.mem_map_of_mem he)⟩

/-! ## Models -/

theorem Model.validate_iff {m : Model} : m.validate = .ok () ↔
    ((∀ e ∈ m.objectTypes.toList, e.1 = e.2.id) ∧ (∀ t ∈ m.objectTypes.values, t.validate = .ok ()) ∧
      (m.objectTypes.values.map (·.name)).Nodup) ∧ ∃ r, Registry.ofModel m = .ok r := by
  rw [validate, bind_eq_ok_iff]
  refine and_congr checkAll_keyed_iff ⟨fun h => ?_, fun ⟨r, hr⟩ => ?_⟩
  · obtain ⟨r, hr, -⟩ := exists_of_bind_eq_ok h
    exact ⟨r, hr⟩
  · rw [hr]
    rfl

structure Model.Valid (m : Model) : Prop where
  key : ∀ e ∈ m.objectTypes.toList, e.1 = e.2.id
  objectType : ∀ e ∈ m.objectTypes.toList, e.2.Valid
  registry : ∃ r, Registry.ofModel m = .ok r

theorem Model.valid_of_validate {m : Model} (h : m.validate = .ok ()) : m.Valid := by
  obtain ⟨⟨hkeys, htypes, -⟩, hregistry⟩ := validate_iff.1 h
  exact ⟨hkeys, fun e he => ObjectType.valid_of_validate (htypes e.2 (List.mem_map_of_mem he)), hregistry⟩

end Schema

end Keyspace
