import Keyspace.Schema.Compatibility
import Keyspace.Proofs.BigEndian
import Keyspace.Proofs.Utf8
import Keyspace.Proofs.WellFormed
import Mathlib.Data.List.Forall2
import Mathlib.Data.List.Perm.Subperm

/-!
The bytes that stand for a schema where compatibility is concerned. Compatible schemas have the same ones. Each part
of a valid schema is written so that its bytes tell where it ends and what it is apart from names and delete settings,
and so valid schemas with the same bytes are compatible.
-/
namespace Keyspace.Schema

variable {α : Type}

theorem pairwise_iff {p : α → α → Bool} {as bs : List α} :
    pairwise p as bs = true ↔ List.Forall₂ (fun a b => p a b = true) as bs := by
  rw [pairwise, Bool.and_eq_true, beq_iff_eq, List.all_eq_true, List.forall₂_iff_zip, Prod.forall]

/-! ## The bytes of compatible schemas -/

theorem flatMap_congr {r : α → α → Prop} (f : α → List UInt8) (h : ∀ {a b}, r a b → f a = f b) {as bs : List α}
    (hr : List.Forall₂ r as bs) : as.flatMap f = bs.flatMap f := by
  induction hr with
  | nil => rfl
  | cons hab _ ih => rw [List.flatMap_cons, List.flatMap_cons, h hab, ih]

theorem ofMap_congr {p : α → α → Bool} (f : α → List UInt8) (h : ∀ {a b}, p a b = true → f a = f b)
    {m n : SortedMap StorageId α} (hp : compatibleMaps p m n = true) :
    HashInput.ofMap f m = HashInput.ofMap f n := by
  have hentries := pairwise_iff.1 hp
  have hvalues : m.values.flatMap f = n.values.flatMap f := by
    rw [SortedMap.values, SortedMap.values, List.flatMap_map, List.flatMap_map]
    exact flatMap_congr _ (fun hab => h (Bool.and_eq_true_iff.1 hab).2) hentries
  rw [HashInput.ofMap, HashInput.ofMap, hvalues, SortedMap.size, SortedMap.size, hentries.length_eq]

theorem SimpleKind.hashInput_congr {k l : SimpleKind} (h : k.compatible l = true) : k.hashInput = l.hashInput := by
  cases k <;> cases l <;> simp only [compatible, Bool.and_eq_true, beq_iff_eq, Bool.false_eq_true] at h
  case value.value => rw [h.1, h.2]
  case reference.reference ids _ _ _ ids' =>
    obtain rfl : ids = ids' := h
    cases ids <;> rfl
  case enumeration.enumeration => rw [h]

theorem SimpleField.fieldKind_congr {f g : SimpleField} (h : f.kind.compatible g.kind = true) :
    f.fieldKind = g.fieldKind := by
  obtain ⟨_, _, _, k⟩ := f
  obtain ⟨_, _, _, l⟩ := g
  cases k <;> cases l <;> first | rfl | cases h

theorem SimpleField.hashInput_congr {f g : SimpleField} (h : f.compatible g = true) : f.hashInput = g.hashInput := by
  simp only [compatible, Bool.and_eq_true, beq_iff_eq] at h
  obtain ⟨⟨hid, hindexed⟩, hkind⟩ := h
  rw [hashInput, hashInput, fieldKind_congr hkind, hid, hindexed, SimpleKind.hashInput_congr hkind]

theorem Field.hashInput_congr {f g : Field} (h : f.compatible g = true) : f.hashInput = g.hashInput := by
  cases f <;> cases g <;> simp only [compatible, Bool.and_eq_true, beq_iff_eq, Bool.false_eq_true] at h
  case simple.simple => exact SimpleField.hashInput_congr h
  case counter.counter => rw [hashInput, hashInput, h]
  case complex.complex =>
    obtain ⟨⟨hid, hcollection⟩, hsub⟩ := h
    rw [hashInput, hashInput, hid, hcollection,
      flatMap_congr SimpleField.hashInput SimpleField.hashInput_congr (pairwise_iff.1 hsub)]

theorem CompositeIndex.hashInput_congr {i j : CompositeIndex} (h : i.compatible j = true) :
    i.hashInput = j.hashInput := by
  simp only [compatible, Bool.and_eq_true, beq_iff_eq] at h
  rw [hashInput, hashInput, h.1, h.2]

theorem ObjectType.hashInput_congr {t u : ObjectType} (h : t.compatible u = true) : t.hashInput = u.hashInput := by
  simp only [compatible, Bool.and_eq_true, beq_iff_eq] at h
  obtain ⟨⟨hid, hfields⟩, hindexes⟩ := h
  rw [hashInput, hashInput, hid, ofMap_congr Field.hashInput Field.hashInput_congr hfields,
    ofMap_congr CompositeIndex.hashInput CompositeIndex.hashInput_congr hindexes]

theorem Model.hashInput_congr {m n : Model} (h : m.compatible n = true) : m.hashInput = n.hashInput :=
  ofMap_congr ObjectType.hashInput ObjectType.hashInput_congr h

/-! ## Bytes that tell where they end -/

/-- What is written of the values that satisfy `ok` can be told from what follows, and tells them apart up to `r`. -/
def PrefixFree (ok : α → Prop) (r : α → α → Prop) (f : α → List UInt8) : Prop :=
  ∀ ⦃a b⦄, ok a → ok b → ∀ ⦃x y⦄, f a ++ x = f b ++ y → r a b ∧ x = y

def IsShort (s : String) : Prop := (Utf8.encode s).length < 2 ^ 32

instance (s : String) : Decidable (IsShort s) := inferInstanceAs (Decidable ((Utf8.encode s).length < 2 ^ 32))

section

open HashInput

theorem PrefixFree.of_width {f : α → List UInt8} (width : Nat) (hlength : ∀ a, (f a).length = width)
    (hinj : Function.Injective f) : PrefixFree (fun _ => True) Eq f := by
  intro a b _ _ x y h
  obtain ⟨hf, hrest⟩ := List.append_inj h ((hlength a).trans (hlength b).symm)
  exact ⟨hinj hf, hrest⟩

theorem prefixFree_ofBool : PrefixFree (fun _ => True) Eq ofBool := by
  refine .of_width 1 (fun _ => rfl) fun a b h => ?_
  cases a <;> cases b <;> first | rfl | cases h

theorem prefixFree_ofUInt32 : PrefixFree (fun _ => True) Eq ofUInt32 :=
  .of_width 4 (fun n => BigEndian.length_encode 4 n.toNat) fun _ _ => BigEndian.encode32_inj.1

theorem prefixFree_ofInt64 : PrefixFree (fun _ => True) Eq ofInt64 := by
  refine .of_width 8 (fun n => BigEndian.length_encode 8 n.toUInt64.toNat) fun m n h => ?_
  rw [← m.toInt64_toUInt64, BigEndian.encode64_inj.1 h, n.toInt64_toUInt64]

theorem prefixFree_ofCount : PrefixFree (· < 2 ^ 32) Eq ofCount := by
  intro m n hm hn x y h
  obtain ⟨hcount, hrest⟩ := prefixFree_ofUInt32 trivial trivial h
  refine ⟨?_, hrest⟩
  have hnat := congrArg UInt32.toNat hcount
  rwa [UInt32.toNat_ofNat', UInt32.toNat_ofNat', Nat.mod_eq_of_lt hm, Nat.mod_eq_of_lt hn] at hnat

theorem prefixFree_ofString : PrefixFree IsShort Eq ofString := by
  intro s t hs ht x y h
  simp only [ofString, List.append_assoc] at h
  obtain ⟨hcount, h⟩ := prefixFree_ofCount hs ht h
  obtain ⟨hbytes, hrest⟩ := List.append_inj h hcount
  exact ⟨Utf8.encode_inj.1 hbytes, hrest⟩

variable {ok : α → Prop} {r : α → α → Prop} {f : α → List UInt8} {as bs : List α} {x y : List UInt8}

/-- Of lists with equally many values, the bytes are taken apart one value after the other. -/
theorem PrefixFree.flatMap (hf : PrefixFree ok r f) (has : ∀ a ∈ as, ok a) (hbs : ∀ b ∈ bs, ok b)
    (hlength : as.length = bs.length) (h : as.flatMap f ++ x = bs.flatMap f ++ y) :
    List.Forall₂ r as bs ∧ x = y := by
  induction as generalizing bs with
  | nil =>
    rw [List.length_eq_zero_iff.1 hlength.symm] at h ⊢
    exact ⟨.nil, h⟩
  | cons a as ih =>
    cases bs with
    | nil => cases hlength
    | cons b bs =>
      obtain ⟨ha, has⟩ := List.forall_mem_cons.1 has
      obtain ⟨hb, hbs⟩ := List.forall_mem_cons.1 hbs
      simp only [List.flatMap_cons, List.append_assoc] at h
      obtain ⟨hab, h⟩ := hf ha hb h
      obtain ⟨hrest, hxy⟩ := ih has hbs (Nat.succ.inj hlength) h
      exact ⟨.cons hab hrest, hxy⟩

/-- A count before the values of a list tells where they end. -/
theorem PrefixFree.counted (hf : PrefixFree ok r f) :
    PrefixFree (fun as => as.length < 2 ^ 32 ∧ ∀ a ∈ as, ok a) (List.Forall₂ r)
      fun as => ofCount as.length ++ as.flatMap f := by
  intro as bs has hbs x y h
  simp only [List.append_assoc] at h
  obtain ⟨hlength, h⟩ := prefixFree_ofCount has.1 hbs.1 h
  exact hf.flatMap has.2 hbs.2 hlength h

theorem PrefixFree.counted_eq (hf : PrefixFree ok Eq f) :
    PrefixFree (fun as : List α => as.length < 2 ^ 32 ∧ ∀ a ∈ as, ok a) Eq
      fun as => ofCount as.length ++ as.flatMap f := by
  have hlists := hf.counted
  rwa [List.forall₂_eq_eq_eq] at hlists

end

/-! ## Maps of items -/

/-- Valid storage IDs are fewer than counts can tell. -/
theorem size_lt_of_isStorageId {m : SortedMap StorageId α} (h : ∀ e ∈ m.toList, IsStorageId e.1) :
    m.size < 2 ^ 32 := by
  have hnodup : (m.toList.map fun e => e.1.toNat).Nodup := by
    rw [List.nodup_iff_pairwise_ne, List.pairwise_map]
    exact m.ascending.imp fun hlt => Nat.ne_of_lt (UInt32.lt_iff_toNat_lt.1 hlt)
  have hsubset : (m.toList.map fun e => e.1.toNat) ⊆ List.range (2 ^ 31) := by
    intro n hn
    obtain ⟨e, he, rfl⟩ := List.mem_map.1 hn
    have := (h e he).2
    exact List.mem_range.2 (by omega)
  have hle := (List.subperm_of_subset hnodup hsubset).length_le
  rw [List.length_map, List.length_range] at hle
  exact Nat.lt_of_le_of_lt hle (by decide)

/-- The keys of items under their own IDs need not be written. -/
theorem prefixFree_ofMap {id : α → StorageId} {ok : α → Prop} {p : α → α → Bool} {f : α → List UInt8}
    (hf : PrefixFree ok (fun a b => p a b = true) f) (hok : ∀ a, ok a → IsStorageId (id a))
    (hid : ∀ a b, p a b = true → id a = id b) :
    PrefixFree (fun m => ∀ e ∈ m.toList, e.1 = id e.2 ∧ ok e.2) (fun m n => compatibleMaps p m n = true)
      (HashInput.ofMap f) := by
  have hentries : PrefixFree (fun e : StorageId × α => e.1 = id e.2 ∧ ok e.2)
      (fun a b => (a.1 == b.1 && p a.2 b.2) = true) fun e => f e.2 := by
    rintro a b ⟨ha, hoka⟩ ⟨hb, hokb⟩ x y h
    obtain ⟨hp, hrest⟩ := hf hoka hokb h
    have hkey : a.1 = b.1 := by rw [ha, hb, hid _ _ hp]
    exact ⟨Bool.and_eq_true_iff.2 ⟨beq_iff_eq.2 hkey, hp⟩, hrest⟩
  have hsize (m : SortedMap StorageId α) (hm : ∀ e ∈ m.toList, e.1 = id e.2 ∧ ok e.2) : m.size < 2 ^ 32 :=
    size_lt_of_isStorageId fun e he => (hm e he).1 ▸ hok e.2 (hm e he).2
  intro m n hm hn x y h
  rw [HashInput.ofMap, HashInput.ofMap, SortedMap.values, SortedMap.values, List.flatMap_map, List.flatMap_map] at h
  obtain ⟨hp, hrest⟩ := hentries.counted ⟨hsize m hm, hm⟩ ⟨hsize n hn, hn⟩ h
  exact ⟨pairwise_iff.2 hp, hrest⟩

/-- Of a set of storage IDs, the count and the members are written. -/
theorem prefixFree_ofSet : PrefixFree (fun s : SortedSet StorageId => ∀ id ∈ s.keys, IsStorageId id) Eq
    fun s => HashInput.ofCount s.size ++ s.keys.flatMap HashInput.ofUInt32 := by
  have hshort (s : SortedSet StorageId) (hs : ∀ id ∈ s.keys, IsStorageId id) : s.keys.length < 2 ^ 32 := by
    rw [SortedMap.keys, List.length_map]
    exact size_lt_of_isStorageId fun e he => hs e.1 (List.mem_map_of_mem he)
  have hsize (s : SortedSet StorageId) : s.size = s.keys.length := (List.length_map _).symm
  intro s t hs ht x y h
  simp only [hsize] at h
  obtain ⟨hkeys, hrest⟩ := prefixFree_ofUInt32.counted_eq ⟨hshort s hs, fun _ _ => trivial⟩
    ⟨hshort t ht, fun _ _ => trivial⟩ h
  refine ⟨?_, hrest⟩
  rw [← SortedSet.ofKeys_keys s, hkeys, SortedSet.ofKeys_keys]

/-! ## Fields -/

/-- Texts and lists that are written are short enough for their counts. -/
def SimpleKind.Short : SimpleKind → Prop
  | value typeName _ => IsShort typeName
  | reference .. => True
  | enumeration identifiers => identifiers.length < 2 ^ 32 ∧ ∀ word ∈ identifiers, IsShort word

instance : (k : SimpleKind) → Decidable k.Short
  | .value typeName _ => inferInstanceAs (Decidable (IsShort typeName))
  | .reference .. => inferInstanceAs (Decidable True)
  | .enumeration identifiers =>
    inferInstanceAs (Decidable (identifiers.length < 2 ^ 32 ∧ ∀ word ∈ identifiers, IsShort word))

def Field.Short : Field → Prop
  | simple f => f.kind.Short
  | counter _ => True
  | complex f => ∀ s ∈ f.subFields, s.kind.Short

instance : (f : Field) → Decidable f.Short
  | .simple f => inferInstanceAs (Decidable f.kind.Short)
  | .counter _ => inferInstanceAs (Decidable True)
  | .complex f => inferInstanceAs (Decidable (∀ s ∈ f.subFields, s.kind.Short))

def ObjectType.Short (t : ObjectType) : Prop := ∀ f ∈ t.fields.values, f.Short

def Model.Short (m : Model) : Prop := ∀ t ∈ m.objectTypes.values, t.Short

instance (m : Model) : Decidable m.Short :=
  inferInstanceAs (Decidable (∀ t ∈ m.objectTypes.values, ∀ f ∈ t.fields.values, f.Short))

/-- The kind of a field is told by its name. -/
theorem FieldKind.prefixFree :
    PrefixFree (fun _ => True) Eq fun k : FieldKind => HashInput.ofString k.elementName := by
  have hshort (k : FieldKind) : IsShort k.elementName := by cases k <;> decide
  intro k l _ _ x y h
  obtain ⟨hname, hrest⟩ := prefixFree_ofString (hshort k) (hshort l) h
  refine ⟨?_, hrest⟩
  cases k <;> cases l <;> first | rfl | exact absurd hname (by decide)

theorem Collection.fieldKind_inj {c d : Collection} (h : c.fieldKind = d.fieldKind) : c = d := by
  cases c <;> cases d <;> first | rfl | cases h

theorem Collection.fieldKind_ne_counter (c : Collection) : c.fieldKind ≠ .counter := by
  cases c <;> nofun

namespace SimpleKind

variable {x y : List UInt8}

/-- A restriction to object types is marked, so that a restriction to none is not taken for the lack of one. -/
theorem reference_split {a a' : DeleteAction} {b b' c c' : Bool} {ids ids' : Option (SortedSet StorageId)}
    (hwell : (reference a b c ids).WellFormed) (hwell' : (reference a' b' c' ids').WellFormed)
    (h : (reference a b c ids).hashInput ++ x = (reference a' b' c' ids').hashInput ++ y) : ids = ids' ∧ x = y := by
  cases ids with
  | none =>
    cases ids' with
    | none =>
      obtain ⟨-, hrest⟩ := prefixFree_ofBool trivial trivial h
      exact ⟨rfl, hrest⟩
    | some s' =>
      simp only [hashInput, List.append_assoc] at h
      exact nomatch (prefixFree_ofBool trivial trivial h).1
  | some s =>
    simp only [hashInput, List.append_assoc] at h
    cases ids' with
    | none => exact nomatch (prefixFree_ofBool trivial trivial h).1
    | some s' =>
      simp only [List.append_assoc] at h
      obtain ⟨-, h⟩ := prefixFree_ofBool trivial trivial h
      rw [← List.append_assoc, ← List.append_assoc] at h
      obtain ⟨hset, hrest⟩ := prefixFree_ofSet (hwell s rfl) (hwell' s' rfl) h
      exact ⟨congrArg some hset, hrest⟩

end SimpleKind

namespace SimpleField

variable {f g : SimpleField} {x y : List UInt8}

theorem fieldKind_ne_counter (f : SimpleField) : f.fieldKind ≠ .counter := by
  obtain ⟨_, _, _, k⟩ := f
  cases k <;> nofun

theorem fieldKind_ne_collection (f : SimpleField) (c : Collection) : f.fieldKind ≠ c.fieldKind := by
  obtain ⟨_, _, _, k⟩ := f
  cases k <;> cases c <;> nofun

/-- Kinds of simple fields that are written alike are compatible, and what follows them is the same. -/
theorem kind_split (hkind : f.fieldKind = g.fieldKind) (hf : f.kind.WellFormed ∧ f.kind.Short)
    (hg : g.kind.WellFormed ∧ g.kind.Short) (h : f.kind.hashInput ++ x = g.kind.hashInput ++ y) :
    f.kind.compatible g.kind = true ∧ x = y := by
  obtain ⟨_, _, _, k⟩ := f
  obtain ⟨_, _, _, l⟩ := g
  cases k <;> cases l <;> try cases hkind
  case value.value =>
    simp only [SimpleKind.hashInput, List.append_assoc] at h
    obtain ⟨htype, h⟩ := prefixFree_ofString hf.2 hg.2 h
    obtain ⟨hsignature, hrest⟩ := prefixFree_ofInt64 trivial trivial h
    exact ⟨Bool.and_eq_true_iff.2 ⟨beq_iff_eq.2 htype, beq_iff_eq.2 hsignature⟩, hrest⟩
  case reference.reference =>
    obtain ⟨hids, hrest⟩ := SimpleKind.reference_split hf.1 hg.1 h
    exact ⟨beq_iff_eq.2 hids, hrest⟩
  case enumeration.enumeration =>
    obtain ⟨hwords, hrest⟩ := prefixFree_ofString.counted_eq hf.2 hg.2 h
    exact ⟨beq_iff_eq.2 hwords, hrest⟩

/-- Simple fields are written so that they can be told from what follows, up to compatibility. -/
theorem prefixFree : PrefixFree (fun f : SimpleField => f.WellFormed ∧ f.kind.Short)
    (fun f g => f.compatible g = true) hashInput := by
  rintro f g ⟨hf, hfshort⟩ ⟨hg, hgshort⟩ x y h
  simp only [hashInput, List.append_assoc] at h
  obtain ⟨hfieldKind, h⟩ := FieldKind.prefixFree trivial trivial h
  obtain ⟨hid, h⟩ := prefixFree_ofUInt32 trivial trivial h
  obtain ⟨hindexed, h⟩ := prefixFree_ofBool trivial trivial h
  obtain ⟨hkind, hrest⟩ := kind_split hfieldKind ⟨hf.kind, hfshort⟩ ⟨hg.kind, hgshort⟩ h
  refine ⟨?_, hrest⟩
  simp only [compatible, hid, hindexed, hkind, beq_self_eq_true, Bool.and_self]

end SimpleField

namespace Field

variable {f g : Field}

theorem WellFormed.id (h : f.WellFormed) : IsStorageId f.id := by
  cases f with
  | simple f => exact SimpleField.WellFormed.id h
  | counter f => exact CounterField.WellFormed.id h
  | complex f => exact ComplexField.WellFormed.id h

theorem id_eq_of_compatible (h : f.compatible g = true) : f.id = g.id := by
  cases f <;> cases g <;> simp only [compatible, SimpleField.compatible, Bool.and_eq_true, beq_iff_eq,
    Bool.false_eq_true] at h
  case simple.simple => exact h.1.1
  case counter.counter => exact h
  case complex.complex => exact h.1.1

/-- The bytes of a field begin with the name of its kind. -/
theorem kind_eq_of_append {x y : List UInt8} (h : f.hashInput ++ x = g.hashInput ++ y) : f.kind = g.kind := by
  have hsplit (f : Field) : ∃ rest, f.hashInput = HashInput.ofString f.kind.elementName ++ rest := by
    cases f with
    | simple f => exact ⟨_, by rw [hashInput, SimpleField.hashInput, List.append_assoc, List.append_assoc]; rfl⟩
    | counter f => exact ⟨_, rfl⟩
    | complex f => exact ⟨_, by rw [hashInput, List.append_assoc]; rfl⟩
  obtain ⟨xs, hf⟩ := hsplit f
  obtain ⟨ys, hg⟩ := hsplit g
  rw [hf, hg, List.append_assoc, List.append_assoc] at h
  exact (FieldKind.prefixFree trivial trivial h).1

/-- How many sub-fields follow a complex field is known from its kind. -/
theorem complex_split {f g : ComplexField} (hf : f.WellFormed) (hg : g.WellFormed)
    (hfshort : (complex f).Short) (hgshort : (complex g).Short) (hcollection : f.collection = g.collection)
    {x y : List UInt8} (h : (complex f).hashInput ++ x = (complex g).hashInput ++ y) :
    (complex f).compatible (complex g) = true ∧ x = y := by
  simp only [hashInput, List.append_assoc] at h
  obtain ⟨-, h⟩ := FieldKind.prefixFree trivial trivial h
  obtain ⟨hid, h⟩ := prefixFree_ofUInt32 trivial trivial h
  have hnames : f.subFields.map (·.name) = g.subFields.map (·.name) := by
    rw [hf.subFieldNames, hg.subFieldNames, hcollection]
  have hlength : f.subFields.length = g.subFields.length := by
    simpa using congrArg List.length hnames
  obtain ⟨hsub, hrest⟩ := SimpleField.prefixFree.flatMap (fun s hs => ⟨(hf.subFields s hs).1, hfshort s hs⟩)
    (fun s hs => ⟨(hg.subFields s hs).1, hgshort s hs⟩) hlength h
  refine ⟨?_, hrest⟩
  simp only [compatible, hid, hcollection, pairwise_iff.2 hsub, beq_self_eq_true, Bool.and_self]

/-- Fields of object types are written so as well. -/
theorem prefixFree : PrefixFree (fun f : Field => f.WellFormed ∧ f.Short) (fun f g => f.compatible g = true)
    hashInput := by
  rintro f g ⟨hf, hfshort⟩ ⟨hg, hgshort⟩ x y h
  have hkind := kind_eq_of_append h
  cases f with
  | simple f =>
    cases g with
    | simple g => exact SimpleField.prefixFree ⟨hf, hfshort⟩ ⟨hg, hgshort⟩ h
    | counter g => exact absurd hkind f.fieldKind_ne_counter
    | complex g => exact absurd hkind (f.fieldKind_ne_collection _)
  | counter f =>
    cases g with
    | simple g => exact absurd hkind.symm g.fieldKind_ne_counter
    | counter g =>
      simp only [hashInput, List.append_assoc] at h
      obtain ⟨hid, hrest⟩ := prefixFree_ofUInt32 trivial trivial (List.append_cancel_left h)
      exact ⟨beq_iff_eq.2 hid, hrest⟩
    | complex g => exact absurd hkind.symm g.collection.fieldKind_ne_counter
  | complex f =>
    cases g with
    | simple g => exact absurd hkind.symm (g.fieldKind_ne_collection _)
    | counter g => exact absurd hkind f.collection.fieldKind_ne_counter
    | complex g => exact complex_split hf hg hfshort hgshort (Collection.fieldKind_inj hkind) h

end Field

/-! ## Indexes, object types and models -/

/-- Indexes are written so as well. -/
theorem CompositeIndex.prefixFree :
    PrefixFree (fun i : CompositeIndex => IsStorageId i.id ∧ i.fields.length ≤ 4) (fun i j => i.compatible j = true)
      hashInput := by
  rintro i j ⟨-, hi⟩ ⟨-, hj⟩ x y h
  rw [hashInput, hashInput, List.append_assoc, List.append_assoc, List.append_assoc, List.append_assoc] at h
  obtain ⟨hid, h⟩ := prefixFree_ofUInt32 trivial trivial h
  rw [← List.append_assoc, ← List.append_assoc] at h
  obtain ⟨hfields, hrest⟩ := prefixFree_ofUInt32.counted_eq ⟨by omega, fun _ _ => trivial⟩
    ⟨by omega, fun _ _ => trivial⟩ h
  exact ⟨Bool.and_eq_true_iff.2 ⟨beq_iff_eq.2 hid, beq_iff_eq.2 hfields⟩, hrest⟩

/-- Object types are written so as well, with all that they have. -/
theorem ObjectType.prefixFree :
    PrefixFree (fun t : ObjectType => t.WellFormed ∧ t.Short) (fun t u => t.compatible u = true) hashInput := by
  have hfields {t : ObjectType} (ht : t.WellFormed ∧ t.Short) :
      ∀ e ∈ t.fields.toList, e.1 = e.2.id ∧ e.2.WellFormed ∧ e.2.Short := fun e he =>
    have hmem : e.2 ∈ t.fields.values := List.mem_map_of_mem he
    ⟨ht.1.fieldKeys e he, ht.1.fields _ hmem, ht.2 _ hmem⟩
  have hindexes {t : ObjectType} (ht : t.WellFormed ∧ t.Short) :
      ∀ e ∈ t.indexes.toList, e.1 = e.2.id ∧ IsStorageId e.2.id ∧ e.2.fields.length ≤ 4 := fun e he =>
    have hindex := ht.1.indexes _ (List.mem_map_of_mem he)
    ⟨ht.1.indexKeys e he, hindex.id, hindex.arity.2⟩
  intro t u ht hu x y h
  simp only [hashInput, List.append_assoc] at h
  obtain ⟨hid, h⟩ := prefixFree_ofUInt32 trivial trivial h
  obtain ⟨hf, h⟩ := prefixFree_ofMap Field.prefixFree (fun f hf => hf.1.id)
    (fun _ _ => Field.id_eq_of_compatible) (hfields ht) (hfields hu) h
  obtain ⟨hi, hrest⟩ := prefixFree_ofMap CompositeIndex.prefixFree (fun i hi => hi.1)
    (fun i j hij => beq_iff_eq.1 (Bool.and_eq_true_iff.1 hij).1) (hindexes ht) (hindexes hu) h
  refine ⟨?_, hrest⟩
  simp only [compatible, hid, hf, hi, beq_self_eq_true, Bool.and_self]

theorem ObjectType.id_eq_of_compatible {t u : ObjectType} (h : t.compatible u = true) : t.id = u.id := by
  simp only [compatible, Bool.and_eq_true, beq_iff_eq] at h
  exact h.1.1

namespace Model

theorem compatible_of_hashInput_eq {m n : Model} (hm : m.WellFormed) (hn : n.WellFormed) (hmshort : m.Short)
    (hnshort : n.Short) (h : m.hashInput = n.hashInput) : m.compatible n = true := by
  have hentries {m : Model} (hm : m.WellFormed) (hshort : m.Short) :
      ∀ e ∈ m.objectTypes.toList, e.1 = e.2.id ∧ e.2.WellFormed ∧ e.2.Short := fun e he =>
    have hmem : e.2 ∈ m.objectTypes.values := List.mem_map_of_mem he
    ⟨hm.keys e he, hm.objectTypes _ hmem, hshort _ hmem⟩
  have happend : m.hashInput ++ [] = n.hashInput ++ [] := congrArg (· ++ []) h
  exact (prefixFree_ofMap ObjectType.prefixFree (fun t ht => ht.1.id) (fun _ _ => ObjectType.id_eq_of_compatible)
    (hentries hm hmshort) (hentries hn hnshort) happend).1

/-- The generated version has 31 bits and is not zero. -/
theorem autogeneratedVersion_bounds (m : Model) :
    1 ≤ m.autogeneratedVersion.toNat ∧ m.autogeneratedVersion.toNat ≤ 2 ^ 31 - 1 := by
  obtain ⟨hash, hhash⟩ : ∃ hash, m.compatibilityHash.toUInt64 = hash := ⟨_, rfl⟩
  have hlt := hash.toNat_lt
  have hversion : (hash >>> 33).toUInt32.toNat = hash.toNat / 2 ^ 33 := by
    rw [UInt64.toNat_toUInt32, UInt64.toNat_shiftRight, show UInt64.toNat 33 % 64 = 33 from rfl,
      Nat.shiftRight_eq_div_pow]
    omega
  rw [autogeneratedVersion, hhash]
  split
  · decide
  · next hne =>
    have hpos : (hash >>> 33).toUInt32.toNat ≠ 0 := fun h0 => hne (UInt32.toNat_inj.1 h0)
    omega

/-- The bytes that are written hold just what compatibility is about. Compatible schemas, valid or not, have the same
bytes and so the same hash and the same generated version, which always is a valid version number. And valid schemas
with the same bytes are compatible, if the texts and lists in them are short enough for their counts. -/
theorem hashInput_captures_compatible :
    (∀ m n : Model, m.compatible n = true → m.hashInput = n.hashInput ∧
      m.compatibilityHash = n.compatibilityHash ∧ m.autogeneratedVersion = n.autogeneratedVersion) ∧
    (∀ m : Model, 1 ≤ m.autogeneratedVersion.toNat ∧ m.autogeneratedVersion.toNat ≤ 2 ^ 31 - 1) ∧
    ∀ m n : Model, m.validate = .ok () → n.validate = .ok () → m.Short → n.Short → m.hashInput = n.hashInput →
      m.compatible n = true := by
  refine ⟨fun m n h => ?_, autogeneratedVersion_bounds, fun m n hm hn hmshort hnshort h => ?_⟩
  · have hinput := hashInput_congr h
    have hhash : m.compatibilityHash = n.compatibilityHash := by rw [compatibilityHash, compatibilityHash, hinput]
    exact ⟨hinput, hhash, by rw [autogeneratedVersion, autogeneratedVersion, hhash]⟩
  · exact compatible_of_hashInput_eq (wellFormed_of_validate hm) (wellFormed_of_validate hn) hmshort hnshort h

/-- Two schemas with fields of every kind, which differ in all names and in what becomes of references. -/
theorem hashInput_captures_compatible_renamed :
    let schema (word : String) (action : DeleteAction) : Model :=
      let fields : List Field := [
        .simple ⟨word ++ "1", 2, true, .value "String" 7⟩,
        .simple ⟨word ++ "2", 3, true, .reference action false false (some (.ofKeys [1]))⟩,
        .simple ⟨word ++ "3", 4, false, .enumeration ["open", "shut"]⟩,
        .counter ⟨word ++ "4", 5⟩,
        .complex ⟨word ++ "5", 6, .list, [⟨"element", 7, false, .value "String" 0⟩]⟩,
        .complex ⟨word ++ "6", 8, .map, [⟨"key", 9, false, .enumeration ["low"]⟩, ⟨"value", 10, false, .value "Int" 0⟩]⟩]
      empty.add ((fields.foldl ObjectType.addField (ObjectType.create word 1)).addIndex ⟨word ++ "7", 11, [2, 4]⟩)
    let m := schema "Item" .fail
    let n := schema "Thing" .delete
    m.validate = .ok () ∧ n.validate = .ok () ∧ m.Short ∧ n.Short ∧ m ≠ n ∧ m.hashInput = n.hashInput ∧
      m.compatible n = true ∧ m.autogeneratedVersion = n.autogeneratedVersion := by
  intro schema m n
  have hm : m.validate = .ok () := by decide +kernel
  have hn : n.validate = .ok () := by decide +kernel
  have hmshort : m.Short := by decide +kernel
  have hnshort : n.Short := by decide +kernel
  have hinput : m.hashInput = n.hashInput := by decide +kernel
  obtain ⟨hequal, -, hcompatible⟩ := hashInput_captures_compatible
  have h := hcompatible m n hm hn hmshort hnshort hinput
  exact ⟨hm, hn, hmshort, hnshort, by decide +kernel, hinput, h, (hequal m n h).2.2⟩

end Model

end Keyspace.Schema
