import Keyspace.SortedMap

/-!
Look-ups in sorted maps. A map is known by what its look-ups give, and each operation on a map changes the
look-ups of the keys that it names and no others.
-/
namespace Keyspace

/-- A list of images is the image of a list. -/
theorem exists_map_eq {α β : Type} {f : α → β} {p : α → Prop} {bs : List β}
    (h : ∀ b ∈ bs, ∃ a, p a ∧ f a = b) : ∃ as : List α, as.map f = bs ∧ ∀ a ∈ as, p a := by
  induction bs with
  | nil => exact ⟨[], rfl, fun _ ha => absurd ha List.not_mem_nil⟩
  | cons b bs ih =>
    obtain ⟨a, ha, rfl⟩ := h b List.mem_cons_self
    obtain ⟨as, rfl, has⟩ := ih fun b hb => h b (List.mem_cons_of_mem _ hb)
    exact ⟨a :: as, rfl, List.forall_mem_cons.2 ⟨ha, has⟩⟩

namespace SortedMap

section

variable {κ α : Type} [LT κ] [DecidableEq κ]

@[simp] theorem get?_empty (k : κ) : (empty : SortedMap κ α).get? k = none := rfl

theorem get?_eq_none_iff {m : SortedMap κ α} {k : κ} :
    m.get? k = none ↔ ∀ e ∈ m.toList, e.1 ≠ k := by
  simp [get?]

theorem contains_eq_false_iff {m : SortedMap κ α} {k : κ} :
    m.contains k = false ↔ m.get? k = none := by
  simp [contains]

end

section

variable {κ α : Type} [LE κ] [LT κ] [Std.LawfulOrderLT κ]

theorem distinct (m : SortedMap κ α) : m.toList.Pairwise fun a b => a.1 ≠ b.1 :=
  m.ascending.imp fun {a b} hab (he : a.1 = b.1) => by
    rw [he] at hab
    exact Std.lt_irrefl hab

theorem nodup_keys (m : SortedMap κ α) : m.keys.Nodup := List.pairwise_map.2 m.distinct

end

section Linear

variable {κ α : Type} [LE κ] [LT κ] [DecidableEq κ] [Std.IsLinearOrder κ] [Std.LawfulOrderLT κ]

/-- A key has one entry at most, so that finding some entry is finding the only one. -/
theorem mem_toList_iff {m : SortedMap κ α} {k : κ} {v : α} :
    (k, v) ∈ m.toList ↔ m.get? k = some v := by
  obtain ⟨es, h⟩ := m
  simp only [get?]
  induction es with
  | nil => simp
  | cons e es ih =>
    obtain ⟨hlt, hes⟩ := List.pairwise_cons.1 h
    by_cases hk : e.1 = k
    · have hno : (k, v) ∉ es := by
        intro hmem
        have := hlt _ hmem
        grind
      simp only [List.mem_cons, hno, or_false, List.find?_cons, hk, decide_true, Option.map_some,
        Option.some.injEq]
      grind
    · have hne : (k, v) ≠ e := by
        intro he
        exact hk (by rw [← he])
      simpa [List.find?_cons, hk, hne] using ih hes

theorem mem_keys_iff {m : SortedMap κ α} {k : κ} : k ∈ m.keys ↔ ∃ v, m.get? k = some v := by
  simp [keys, ← mem_toList_iff]

/-- Two maps with the same look-ups are the same map. -/
theorem ext_get? {m n : SortedMap κ α} (h : ∀ k, m.get? k = n.get? k) : m = n := by
  have hnodup (o : SortedMap κ α) : o.toList.Nodup := o.ascending.imp fun hab he => by
    subst he
    grind
  refine SortedMap.ext ?_
  refine List.Perm.eq_of_pairwise (fun a b _ _ hab hba => ?_) m.ascending n.ascending ?_
  · exact absurd hba (Std.not_gt_of_lt hab)
  refine (List.perm_ext_iff_of_nodup (hnodup m) (hnodup n)).2 fun e => ?_
  rw [mem_toList_iff (m := m) (k := e.1) (v := e.2), mem_toList_iff (m := n), h]

/-- A filter that looks at keys alone hides the keys that it refuses. -/
theorem get?_filter_key (p : κ → Bool) (m : SortedMap κ α) (k : κ) :
    (m.filter fun e => p e.1).get? k = if p k then m.get? k else none := by
  cases hg : m.get? k with
  | none =>
    have hno := get?_eq_none_iff.1 hg
    rw [get?_eq_none_iff.2 fun e he => hno e (List.mem_filter.1 he).1]
    simp
  | some v =>
    have hmem := mem_toList_iff.2 hg
    split
    · next hp => exact mem_toList_iff.1 (List.mem_filter.2 ⟨hmem, hp⟩)
    · next hp =>
      refine get?_eq_none_iff.2 fun e he hk => hp ?_
      rw [← hk]
      exact (List.mem_filter.1 he).2

theorem get?_erase (m : SortedMap κ α) (k x : κ) :
    (m.erase k).get? x = if x = k then none else m.get? x := by
  have h := get?_filter_key (fun y => decide (y ≠ k)) m x
  simp only [decide_eq_true_eq, ite_not] at h
  exact h

variable [DecidableLT κ]

/-- An entry that is put in is found, and hides none but the one with its key. -/
theorem find?_insertEntry (k x : κ) (v : α) (es : List (κ × α)) :
    (insertEntry k v es).find? (·.1 = x) =
      if x = k then some (k, v) else es.find? (·.1 = x) := by
  induction es with
  | nil => simp [insertEntry, List.find?_cons]; grind
  | cons e es ih =>
    rw [insertEntry]
    split
    · by_cases hx : x = k <;> simp [List.find?_cons, hx]; grind
    · split
      · by_cases hx : x = k
        · subst hx
          have : e.1 ≠ x := by grind
          simp [this, ih]
        · simp [List.find?_cons, ih, hx]
      · have : e.1 = k := by grind
        by_cases hx : x = k
        · simp [hx]
        · simp [List.find?_cons, hx]
          grind

theorem get?_insert (m : SortedMap κ α) (k x : κ) (v : α) :
    (m.insert k v).get? x = if x = k then some v else m.get? x := by
  simp only [get?, toList_insert, find?_insertEntry]
  split <;> rfl

@[simp] theorem get?_insert_self (m : SortedMap κ α) (k : κ) (v : α) :
    (m.insert k v).get? k = some v := by
  simp [get?_insert]

/-- What is found after an entry is put in is the entry, or was found before. -/
theorem get?_insert_cases {m : SortedMap κ α} {k x : κ} {v w : α} (h : (m.insert k v).get? x = some w) :
    (x = k ∧ w = v) ∨ m.get? x = some w := by
  rw [get?_insert] at h
  split at h
  · next hx => exact .inl ⟨hx, (Option.some.inj h).symm⟩
  · exact .inr h

/-- Entries with distinct keys are found after they are put in, in whatever order. -/
theorem get?_foldl_insert {es : List (κ × α)} (h : es.Pairwise fun a b => a.1 ≠ b.1) (m : SortedMap κ α)
    (k : κ) :
    (es.foldl (fun m e => m.insert e.1 e.2) m).get? k =
      ((es.find? (·.1 = k)).map (·.2)).or (m.get? k) := by
  induction es generalizing m with
  | nil => simp
  | cons e es ih =>
    obtain ⟨hne, hes⟩ := List.pairwise_cons.1 h
    rw [List.foldl_cons, ih hes, get?_insert, List.find?_cons]
    by_cases hk : e.1 = k
    · have hnone : es.find? (·.1 = k) = none := List.find?_eq_none.2 fun x hx => by
        have := hne x hx
        simp
        grind
      simp [hk, hnone]
    · have hk' : ¬k = e.1 := fun h => hk h.symm
      simp [hk, hk']

/-- A map is made again from its entries in any order. -/
theorem ofList_perm {es : List (κ × α)} {m : SortedMap κ α} (h : es.Perm m.toList) : ofList es = m := by
  have hes : es.Pairwise fun a b => a.1 ≠ b.1 :=
    h.pairwise_iff (fun hab hba => hab hba.symm) |>.2 m.distinct
  refine ext_get? fun k => ?_
  rw [ofList, get?_foldl_insert hes, get?_empty, Option.or_none]
  have hmem : ∀ v, (es.find? (·.1 = k)).map (·.2) = some v → m.get? k = some v := by
    intro v hv
    obtain ⟨e, he, rfl⟩ := Option.map_eq_some_iff.1 hv
    have hk : e.1 = k := by simpa using List.find?_some he
    rw [← mem_toList_iff, ← hk]
    exact h.mem_iff.1 (List.mem_of_find?_eq_some he)
  cases hf : (es.find? (·.1 = k)).map (·.2) with
  | some v => rw [hmem v hf]
  | none =>
    rw [Option.map_eq_none_iff, List.find?_eq_none] at hf
    exact (get?_eq_none_iff.2 fun e he => by simpa using hf e (h.mem_iff.2 he)).symm

/-- Maps with the same entries are the same. -/
theorem ext_perm {m n : SortedMap κ α} (h : m.toList.Perm n.toList) : m = n :=
  (ofList_perm (.refl _)).symm.trans (ofList_perm h)

/-- A new entry is put in beside the others. -/
theorem toList_insert_perm {m : SortedMap κ α} {k : κ} {v : α} (h : m.get? k = none) :
    (m.insert k v).toList.Perm ((k, v) :: m.toList) := by
  have hinsert : ∀ es : List (κ × α), (∀ e ∈ es, e.1 ≠ k) → (insertEntry k v es).Perm ((k, v) :: es) := by
    intro es
    induction es with
    | nil => exact fun _ => .refl _
    | cons e es ih =>
      intro hes
      obtain ⟨he, hes⟩ := List.forall_mem_cons.1 hes
      rw [insertEntry]
      split
      · exact .refl _
      · split
        · exact ((ih hes).cons e).trans (.swap _ _ _)
        · grind
  exact hinsert m.toList (get?_eq_none_iff.1 h)

end Linear

end SortedMap

namespace SortedSet

variable {κ : Type} [LE κ] [LT κ] [DecidableEq κ] [Std.IsLinearOrder κ] [Std.LawfulOrderLT κ] [DecidableLT κ]

theorem ofKeys_keys (s : SortedSet κ) : ofKeys s.keys = s := by
  have hentries : s.keys.map (·, ()) = s.toList := by
    simp [SortedMap.keys, Function.comp_def]
  rw [ofKeys, hentries, SortedMap.ofList_perm (.refl _)]

/-- A set has the members of the list that it is made of. -/
theorem mem_keys_ofKeys {ks : List κ} {k : κ} : k ∈ (ofKeys ks).keys ↔ k ∈ ks := by
  have hfold : ∀ s : SortedSet κ,
      k ∈ ((ks.map (·, ())).foldl (fun s e => s.insert e.1 e.2) s).keys ↔ k ∈ ks ∨ k ∈ s.keys := by
    induction ks with
    | nil => simp
    | cons x ks ih =>
      intro s
      have hinsert : k ∈ (s.insert x ()).keys ↔ k = x ∨ k ∈ s.keys := by
        by_cases hk : k = x <;> simp [SortedMap.mem_keys_iff, SortedMap.get?_insert, hk]
      rw [List.map_cons, List.foldl_cons, ih, hinsert, List.mem_cons, or_left_comm, or_assoc]
  exact (hfold .empty).trans (or_iff_left List.not_mem_nil)

end SortedSet

end Keyspace
