import Keyspace.Proofs.Elements
import Keyspace.Proofs.Format

/-!
The editions of schema documents. An earlier version lists object types as the current one does, or under another name,
and has no indexes: elements without indexes mean the same in all versions, and others are read in the current one only.
-/
namespace Keyspace

namespace Json

section

variable {α : Type} {names : List String} {name : String} {v w x : Json}

theorem Has.unique (h : v.Has names name w) (hx : v.Has names name x) : x = w := by
  cases h with
  | member h =>
    cases hx with
    | member hx => exact (h x).1 ((hx x).2 rfl)
  | item h =>
    cases hx with
    | item hx => exact Option.some.inj (hx.symm.trans h)

theorem Omits.not_has (h : v.Omits names name) : ¬v.Has names name w := by
  intro hw
  cases h with
  | member h =>
    cases hw with
    | member hw => exact h (List.mem_map_of_mem ((hw w).2 rfl))
  | item h =>
    cases hw with
    | item hw => simp [List.getElem?_eq_none h] at hw

/-- A setting that is written is read from what is written. -/
theorem Setting.spelled_of_has {spelled : Json → α → Prop} {default : Option α} {a : α}
    (h : Setting names v name spelled default a) (hw : v.Has names name w) : spelled w a := by
  cases h with
  | written hx hspelled =>
    rw [← hx.unique hw] at hspelled
    exact hspelled
  | omitted homits => exact absurd hw homits.not_has

end

end Json

namespace Schema

open Json (array object integer present record?_present withDefault list?)

/-! ## Elements with indexes -/

namespace ObjectTypeElement

/-- An element gives its indexes, if only an empty list of them. -/
def GivesIndexes (v : Json) : Prop := ∃ w, v.Has names "compositeIndexes" w ∧ w ≠ .null

/-- Whether an element gives its indexes shows in what is read of it. -/
theorem givesIndexes_iff {v : Json} {e : ObjectTypeElement} (h : ofJson? v = some e) :
    GivesIndexes v ↔ e.indexes ≠ none := by
  have hspelled := (spelled_of_ofJson? h).indexes
  revert hspelled
  generalize e.indexes = is
  intro hspelled
  constructor
  · rintro ⟨w, hw, hnull⟩ hnone
    subst hnone
    cases hspelled.spelled_of_has hw
    exact hnull rfl
  · intro hsome
    cases hspelled with
    | written hw hlist =>
      cases hlist with
      | null => exact absurd rfl hsome
      | item hlist =>
        cases hlist
        exact ⟨_, hw, nofun⟩
    | omitted _ hnone => exact absurd (Option.some.inj hnone).symm hsome

theorem exists_givesIndexes_iff {vs : List Json} {es : List ObjectTypeElement} (h : vs.mapM ofJson? = some es) :
    (∃ v ∈ vs, GivesIndexes v) ↔ ∃ e ∈ es, e.indexes ≠ none := by
  induction vs generalizing es with
  | nil =>
    cases h
    simp
  | cons v vs ih =>
    rw [List.mapM_cons] at h
    obtain ⟨e, he, h⟩ := Option.bind_eq_some_iff.1 h
    obtain ⟨es, hes, h⟩ := Option.bind_eq_some_iff.1 h
    cases h
    simp only [List.mem_cons, exists_eq_or_imp, givesIndexes_iff he, ih hes]

end ObjectTypeElement

/-! ## Elements in documents of each version -/

namespace Document

variable {es : List ObjectTypeElement} {version : Nat} {s m : Model}

def edition (es : List ObjectTypeElement) : Nat → Document
  | 0 => ⟨0, none, some es⟩
  | version => ⟨version, some es, none⟩

theorem version_edition (es : List ObjectTypeElement) (version : Nat) : (edition es version).version = version := by
  cases version <;> rfl

theorem listed_edition (es : List ObjectTypeElement) (version : Nat) : (edition es version).listed = es := by
  cases version <;> simp [edition, listed]

theorem toModel_edition (h : version ≤ 2) :
    (edition es version).toModel = es.foldlM (addObjectType version) .empty := by
  match version, h with
  | 0, _ | 1, _ | 2, _ => rfl

/-- The version makes no difference to elements without indexes. -/
theorem foldlM_addObjectType_of_none (h : ∀ e ∈ es, e.indexes = none) (version version' : Nat) (s : Model) :
    es.foldlM (addObjectType version) s = es.foldlM (addObjectType version') s := by
  induction es generalizing s with
  | nil => rfl
  | cons e es ih =>
    obtain ⟨he, hes⟩ := List.forall_mem_cons.1 h
    have hstep : addObjectType version s e = addObjectType version' s e := by
      simp [addObjectType, ObjectTypeElement.toObjectType, he]
    simp only [List.foldlM_cons, hstep, ih hes]

/-- What the current version reads, an earlier one reads up to the first element with indexes, which it refuses. -/
theorem foldlM_addObjectType_early (hversion : version < 2) (hread : es.foldlM (addObjectType 2) s = .ok m)
    (hindexes : ∃ e ∈ es, e.indexes ≠ none) :
    ∃ e ∈ es, es.foldlM (addObjectType version) s =
      .error (.document (.earlyIndexes (ObjectType.create e.name e.id).describe version)) := by
  induction es generalizing s with
  | nil => simp at hindexes
  | cons e es ih =>
    obtain ⟨s', hs', hrest⟩ := exists_of_bind_eq_ok hread
    cases he : e.indexes with
    | none =>
      have hfirst : addObjectType version s e = .ok s' := by
        rw [← hs']
        simp [addObjectType, ObjectTypeElement.toObjectType, he]
      have hlater : ∃ e ∈ es, e.indexes ≠ none := by simpa [he] using hindexes
      obtain ⟨f, hf, hrefused⟩ := ih hrest hlater
      refine ⟨f, List.mem_cons_of_mem _ hf, ?_⟩
      rw [List.foldlM_cons, hfirst, ok_bind, hrefused]
    | some is =>
      -- The fields of the element are read in both versions, before its indexes are looked at.
      obtain ⟨t, ht, -⟩ := exists_of_bind_eq_ok hs'
      obtain ⟨u, hu, -⟩ := exists_of_bind_eq_ok ht
      obtain ⟨fields, -, rfl⟩ := ObjectTypeElement.foldlM_addField_eq_ok_iff.1 hu
      refine ⟨e, List.mem_cons_self, ?_⟩
      rw [List.foldlM_cons, addObjectType, ObjectTypeElement.toObjectType, hu, ok_bind, he]
      simp only [if_pos hversion]
      rfl

/-- An earlier version refuses elements with indexes. -/
theorem toModel_edition_early (hversion : version < 2) (hindexes : ∃ e ∈ es, e.indexes ≠ none) :
    ∃ why, (edition es version).toModel = .error why := by
  cases hmodel : (edition es version).toModel with
  | error why => exact ⟨why, rfl⟩
  | ok m =>
    obtain ⟨e, he, hsome⟩ := hindexes
    have hcurrent : (edition es version).version = 2 :=
      (toModel_eq_ok_iff.1 hmodel).1.indexes e (by rwa [listed_edition]) hsome
    rw [version_edition] at hcurrent
    omega

/-- An earlier version names an object type of the current one as the first that has indexes. -/
theorem toModel_edition_earlyIndexes (hversion : version < 2) (hindexes : ∃ e ∈ es, e.indexes ≠ none)
    (hread : (edition es 2).toModel = .ok m) :
    ∃ t ∈ m.objectTypes.values,
      (edition es version).toModel = .error (.document (.earlyIndexes t.describe version)) := by
  have hdescribes : (edition es 2).Describes m := (toModel_eq_ok_iff.1 hread).2
  rw [Describes, listed_edition] at hdescribes
  have hvalues := hdescribes.imp fun e _ t ht (h : e.Describes t) => And.intro ht h
  rw [toModel_edition (Nat.le_refl 2)] at hread
  obtain ⟨e, he, hrefused⟩ := foldlM_addObjectType_early hversion hread hindexes
  obtain ⟨t, ht, het⟩ := hvalues.exists_item e he
  have hname : (ObjectType.create e.name e.id).describe = t.describe := by
    simp only [ObjectType.describe, het.name, het.id]
    rfl
  exact ⟨t, ht, by rw [toModel_edition (by omega), hrefused, hname]⟩

/-! ## Documents as bytes -/

/-- Some bytes are a document in which its version and two lists of object types are given, or left out. -/
def Gives (bytes : List UInt8) (version types objects : Option Json) : Prop :=
  ∃ cs v w, Utf8.decodeChars bytes = .ok cs ∧ Json.parseChars cs = some v ∧
    v.record? ["SchemaModel"] = some [some w] ∧ w.record? names = some [version, types, objects]

def Vacant (list : Option Json) : Prop := list = none ∨ list = some .null

/-- Some bytes are a document of a version that lists elements as the version asks. -/
inductive Lists (vs : List Json) : Nat → List UInt8 → Prop where
  | first {bytes version types} (h : Gives bytes version types (some (array vs)))
    (hversion : version = none ∨ version = some (integer 0)) (htypes : Vacant types) : Lists vs 0 bytes
  | later {bytes objects} {version : Nat} (h : Gives bytes (some (integer version)) (some (array vs)) objects)
    (hversion : version = 1 ∨ version = 2) (hobjects : Vacant objects) : Lists vs version bytes

variable {vs : List Json} {bytes : List UInt8}

theorem optional_of_vacant {list : Option Json} (h : Vacant list) :
    Json.optional (list? ObjectTypeElement.ofJson?) list = some none := by
  rcases h with rfl | rfl <;> rfl

theorem ofBytes?_of_gives {version types objects : Option Json} (h : Gives bytes version types objects) :
    ofBytes? bytes = (do return ⟨← withDefault 0 (Json.nat? Json.maxUInt64) version,
      ← Json.optional (list? ObjectTypeElement.ofJson?) types,
      ← Json.optional (list? ObjectTypeElement.ofJson?) objects⟩) := by
  obtain ⟨cs, v, w, hcs, hv, hw, hfields⟩ := h
  rw [names] at hfields
  simp [ofBytes?, hcs, hv, ofJson?, hw, hfields]

theorem Lists.version_le (h : Lists vs version bytes) : version ≤ 2 := by
  cases h <;> omega

/-- A document that lists elements is the one of its version with these elements, if they are elements at all. -/
theorem Lists.ofBytes?_eq (h : Lists vs version bytes) :
    ofBytes? bytes = (vs.mapM ObjectTypeElement.ofJson?).map (edition · version) := by
  have hlist : Json.optional (list? ObjectTypeElement.ofJson?) (some (array vs)) =
      (vs.mapM ObjectTypeElement.ofJson?).map some := rfl
  cases h with
  | first h hversion htypes =>
    have hzero : ∀ o, o = none ∨ o = some (integer 0) → withDefault 0 (Json.nat? Json.maxUInt64) o = some 0 := by
      rintro _ (rfl | rfl) <;> rfl
    rw [ofBytes?_of_gives h, hzero _ hversion, optional_of_vacant htypes, hlist]
    cases vs.mapM ObjectTypeElement.ofJson? <;> rfl
  | later h hversion hobjects =>
    rw [ofBytes?_of_gives h, optional_of_vacant hobjects, hlist]
    rcases hversion with rfl | rfl <;> cases vs.mapM ObjectTypeElement.ofJson? <;> rfl

/-- The document that gives some settings, and no others. -/
def giving (version types objects : Option Json) : Json :=
  object [("SchemaModel", object (present [("formatVersion", version), ("ObjectType", types), ("Object", objects)]))]

theorem gives_giving (version types objects : Option Json) :
    Gives (Utf8.encodeChars (Json.prettyChars 0 (giving version types objects))) version types objects := by
  have houter : (giving version types objects).record? ["SchemaModel"] = some [some _] :=
    record?_object rfl (by decide)
  have hinner : Json.record? names (object (present [("formatVersion", version), ("ObjectType", types),
      ("Object", objects)])) = some [version, types, objects] := record?_present rfl (by decide)
  exact ⟨_, _, _, Utf8.decodeChars_encodeChars _, Json.parseChars_prettyChars _, houter, hinner⟩

/-- Any elements are listed in a document of each version. -/
theorem exists_lists (vs : List Json) (h : version ≤ 2) : ∃ bytes, Lists vs version bytes := by
  match version, h with
  | 0, _ => exact ⟨_, .first (gives_giving none none _) (.inl rfl) (.inl rfl)⟩
  | 1, _ => exact ⟨_, .later (gives_giving _ _ none) (.inl rfl) (.inl rfl)⟩
  | 2, _ => exact ⟨_, .later (gives_giving _ _ none) (.inr rfl) (.inl rfl)⟩

end Document

namespace Model

variable {vs : List Json} {version : Nat} {bytes : List UInt8}

theorem ofBytes_of_lists (h : Document.Lists vs version bytes) :
    ofBytes bytes = match vs.mapM ObjectTypeElement.ofJson? with
      | none => .error .malformed
      | some es => do
        let m ← (Document.edition es version).toModel
        m.validate
        return m := by
  rw [ofBytes, h.ofBytes?_eq]
  cases vs.mapM ObjectTypeElement.ofJson? <;> rfl

/-- Any elements can be listed in a document of each version. Where no element gives its indexes, all these documents are
read as the same model, or refused for the same reason. Where one does, those of earlier versions are refused; and if that
of the current one is read, they are refused since they are early. -/
theorem ofBytes_editions (vs : List Json) :
    (∀ i ≤ 2, ∃ b, Document.Lists vs i b) ∧
    ((∀ v ∈ vs, ¬ObjectTypeElement.GivesIndexes v) → ∀ i j b c,
      Document.Lists vs i b → Document.Lists vs j c → ofBytes b = ofBytes c) ∧
    ((∃ v ∈ vs, ObjectTypeElement.GivesIndexes v) → ∀ i b, i < 2 → Document.Lists vs i b →
      (∃ why, ofBytes b = .error why) ∧
      ∀ c m, Document.Lists vs 2 c → ofBytes c = .ok m →
        ∃ t ∈ m.objectTypes.values, ofBytes b = .error (.document (.earlyIndexes t.describe i))) := by
  refine ⟨fun i hi => Document.exists_lists vs hi, ?_, ?_⟩
  · intro hnone i j b c hb hc
    rw [ofBytes_of_lists hb, ofBytes_of_lists hc]
    cases hes : vs.mapM ObjectTypeElement.ofJson? with
    | none => rfl
    | some es =>
      have hplain : ∀ e ∈ es, e.indexes = none := by
        intro e he
        by_contra hsome
        obtain ⟨v, hv, hgives⟩ := (ObjectTypeElement.exists_givesIndexes_iff hes).2 ⟨e, he, hsome⟩
        exact hnone v hv hgives
      simp only [Document.toModel_edition hb.version_le, Document.toModel_edition hc.version_le,
        Document.foldlM_addObjectType_of_none hplain i j]
  · intro hgives i b hi hb
    rw [ofBytes_of_lists hb]
    cases hes : vs.mapM ObjectTypeElement.ofJson? with
    | none =>
      refine ⟨⟨_, rfl⟩, ?_⟩
      intro c m hc hread
      rw [ofBytes_of_lists hc, hes] at hread
      cases hread
    | some es =>
      have hindexes := (ObjectTypeElement.exists_givesIndexes_iff hes).1 hgives
      constructor
      · obtain ⟨why, hwhy⟩ := Document.toModel_edition_early hi hindexes
        exact ⟨why, by simp only [hwhy]; rfl⟩
      · intro c m hc hread
        rw [ofBytes_of_lists hc, hes] at hread
        obtain ⟨m', hm', hvalid⟩ := exists_of_bind_eq_ok hread
        obtain ⟨_, -, hm⟩ := exists_of_bind_eq_ok hvalid
        cases hm
        obtain ⟨t, ht, hrefused⟩ := Document.toModel_edition_earlyIndexes hi hindexes hm'
        exact ⟨t, ht, by simp only [hrefused]; rfl⟩

/-- A type without indexes, in the first version and in the current one, and the type with an empty list of indexes. -/
theorem ofBytes_editions_word :
    let plain : Json := object [("name", .string "Word"), ("storageId", integer 1)]
    let indexed : Json := object [("name", .string "Word"), ("storageId", integer 1), ("compositeIndexes", array [])]
    let first (v : Json) : List UInt8 :=
      Utf8.encodeChars (Json.prettyChars 0 (Document.giving none none (some (array [v]))))
    let later (version : Nat) (v : Json) : List UInt8 :=
      Utf8.encodeChars (Json.prettyChars 0 (Document.giving (some (integer version)) (some (array [v])) none))
    let word : Model := Model.empty.add (ObjectType.create "Word" 1)
    (ofBytes (first plain) = .ok word ∧ ofBytes (later 2 plain) = .ok word) ∧
    (ofBytes (later 2 indexed) = .ok word ∧ (∃ why, ofBytes (first indexed) = .error why) ∧
      ∃ t ∈ word.objectTypes.values, ofBytes (later 1 indexed) = .error (.document (.earlyIndexes t.describe 1))) := by
  intro plain indexed first later word
  have hfirst (v : Json) : Document.Lists [v] 0 (first v) :=
    .first (Document.gives_giving _ _ _) (.inl rfl) (.inl rfl)
  have hlater (version : Nat) (v : Json) (h : version = 1 ∨ version = 2) : Document.Lists [v] version (later version v) :=
    .later (Document.gives_giving _ _ _) h (.inl rfl)
  have hplain : ∀ v ∈ [plain], ¬ObjectTypeElement.GivesIndexes v := by
    have hread : ObjectTypeElement.ofJson? plain = some ⟨"Word", 1, [], none⟩ := by decide +kernel
    simp [ObjectTypeElement.givesIndexes_iff hread]
  have hindexed : ∃ v ∈ [indexed], ObjectTypeElement.GivesIndexes v := by
    have hread : ObjectTypeElement.ofJson? indexed = some ⟨"Word", 1, [], some []⟩ := by decide +kernel
    simp [ObjectTypeElement.givesIndexes_iff hread]
  have hword : ofBytes (later 2 plain) = .ok word := by
    rw [ofBytes_of_lists (hlater 2 plain (.inr rfl))]
    decide +kernel
  have hcurrent : ofBytes (later 2 indexed) = .ok word := by
    rw [ofBytes_of_lists (hlater 2 indexed (.inr rfl))]
    decide +kernel
  have hsame := (ofBytes_editions [plain]).2.1 hplain 0 2 _ _ (hfirst plain) (hlater 2 plain (.inr rfl))
  have hearly := (ofBytes_editions [indexed]).2.2 hindexed
  have hrefused := (hearly 0 _ (by decide) (hfirst indexed)).1
  have hreason := (hearly 1 _ (by decide) (hlater 1 indexed (.inl rfl))).2 _ _ (hlater 2 indexed (.inr rfl)) hcurrent
  exact ⟨⟨hsame.trans hword, hword⟩, hcurrent, hrefused, hreason⟩

end Model

end Schema

end Keyspace
