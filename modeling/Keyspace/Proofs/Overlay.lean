import Keyspace.Overlay
import Keyspace.Proofs.Nearest
import Keyspace.Proofs.RangeSet

/-!
An overlay read as one store. What is seen of the store below is that store without the cleared keys; both
ordered look-ups find the nearest entry of the whole, and every write changes the look-ups as it would in a
plain store. The searches below jump from cleared range to cleared range and end.
-/
namespace Keyspace.Overlay

/-- What is seen of the store below. -/
def visible (o : Overlay) : Store := o.base.filter fun e => !o.cleared.contains e.1

theorem get?_visible (o : Overlay) (k : Key) :
    o.visible.get? k = if o.cleared.contains k then none else o.base.get? k := by
  rw [visible, SortedMap.get?_filter_key fun x => !o.cleared.contains x]
  cases o.cleared.contains k <;> rfl

theorem get?_eq (o : Overlay) (k : Key) : o.get? k = (o.puts.get? k).or (o.visible.get? k) := by
  rw [get?, get?_visible]
  cases o.puts.get? k <;> rfl

@[simp] theorem get?_ofStore (base : Store) (k : Key) : (ofStore base).get? k = base.get? k := by
  simp [get?, ofStore]

/-! ## Ordered look-ups -/

/-- Jumping over cleared ranges passes over cleared entries only. -/
theorem firstVisible_eq_find? (cleared : RangeSet) {es : List Entry}
    (h : es.Pairwise fun a b => a.1 < b.1) :
    firstVisible cleared es = es.find? fun e => !cleared.contains e.1 := by
  fun_induction firstVisible cleared es with
  | case1 => rfl
  | case2 e es hnone =>
    rw [RangeSet.covering?_eq_none_iff] at hnone
    simp [hnone]
  | case3 e es r hr ih =>
    obtain ⟨hlt, hes⟩ := List.pairwise_cons.1 h
    obtain ⟨hmem, hk⟩ := RangeSet.covering?_eq_some_iff.1 hr
    have he : cleared.contains e.1 = true := RangeSet.contains_iff.2 ⟨r, hmem, hk⟩
    rw [ih (hes.sublist (List.dropWhile_sublist _)), List.find?_cons, he, Bool.not_true]
    conv => rhs; rw [← List.takeWhile_append_dropWhile (p := fun x => x.1.isBelow r.high) (l := es)]
    rw [List.find?_append, eq_comm, Option.or_eq_right_of_none]
    refine List.find?_eq_none.2 fun x hx => ?_
    have hbelow := List.all_eq_true.1 List.all_takeWhile x hx
    have hafter := hlt x ((List.takeWhile_sublist _).mem hx)
    have hin : cleared.contains x.1 = true := by
      refine RangeSet.contains_iff.2 ⟨r, hmem, ?_⟩
      rw [KeyRange.contains_iff] at hk ⊢
      have hafter : Bound.key e.1 < .key x.1 := hafter
      simp only [Key.isBelow, decide_eq_true_eq] at hbelow
      grind
    simp [hin]

/-- A search downwards that jumps over what is cleared finds the first entry that is not. -/
theorem lastVisible_eq_find? (cleared : RangeSet) {es : List Entry}
    (h : es.Pairwise fun a b => b.1 < a.1) :
    lastVisible cleared es = es.find? fun e => !cleared.contains e.1 := by
  fun_induction lastVisible cleared es with
  | case1 => rfl
  | case2 e es hnone =>
    rw [RangeSet.covering?_eq_none_iff] at hnone
    simp [hnone]
  | case3 e es r hr ih =>
    obtain ⟨hlt, hes⟩ := List.pairwise_cons.1 h
    obtain ⟨hmem, hk⟩ := RangeSet.covering?_eq_some_iff.1 hr
    have he : cleared.contains e.1 = true := RangeSet.contains_iff.2 ⟨r, hmem, hk⟩
    rw [ih (hes.sublist (List.dropWhile_sublist _)), List.find?_cons, he, Bool.not_true]
    conv => rhs; rw [← List.takeWhile_append_dropWhile (p := fun x => !x.1.isBelow (.key r.low)) (l := es)]
    rw [List.find?_append, eq_comm, Option.or_eq_right_of_none]
    refine List.find?_eq_none.2 fun x hx => ?_
    have habove := List.all_eq_true.1 List.all_takeWhile x hx
    have hbefore := hlt x ((List.takeWhile_sublist _).mem hx)
    have hin : cleared.contains x.1 = true := by
      refine RangeSet.contains_iff.2 ⟨r, hmem, ?_⟩
      rw [KeyRange.contains_iff] at hk ⊢
      have hbefore : Bound.key x.1 < .key e.1 := hbefore
      simp only [Key.isBelow, Bool.not_eq_true', decide_eq_false_iff_not] at habove
      grind
    simp [hin]

/-- A search behind the elements at the front that satisfy `p` is a search for one that does not. -/
theorem find?_dropWhile {α : Type} {p q : α → Bool} {l : List α} (h : l.Pairwise fun a b => p b → p a) :
    (l.dropWhile p).find? q = (l.filter q).find? fun a => !p a := by
  induction l with
  | nil => rfl
  | cons a l ih =>
    obtain ⟨ha, hl⟩ := List.pairwise_cons.1 h
    rw [List.dropWhile_cons]
    split
    · next hp =>
      rw [ih hl, List.filter_cons]
      split
      · rw [List.find?_cons, hp, Bool.not_true]
      · rfl
    · next hp =>
      have hall : ∀ b ∈ (a :: l).filter q, p b = false := fun b hb => by
        rcases List.mem_cons.1 (List.mem_filter.1 hb).1 with rfl | hb
        · simpa using hp
        · simpa using fun hpb => hp (ha b hb hpb)
      rw [← List.head?_filter]
      cases hf : (a :: l).filter q with
      | nil => rfl
      | cons b bs => simp [hall b (by simp [hf])]

/-- What a search upwards comes to below is the first that is visible of the store there. -/
theorem firstVisible_eq (o : Overlay) (k : Key) :
    firstVisible o.cleared (o.base.toList.dropWhile fun e => decide (e.1 < k)) =
      o.visible.firstAtLeast k := by
  have hmono : o.base.toList.Pairwise fun a b => decide (b.1 < k) → decide (a.1 < k) :=
    o.base.ascending.imp fun hab hb => by
      simp only [decide_eq_true_eq] at hb ⊢
      exact Std.lt_trans hab hb
  rw [firstVisible_eq_find? _ (o.base.ascending.sublist (List.dropWhile_sublist _)),
    find?_dropWhile hmono, Store.firstAtLeast, visible, SortedMap.toList_filter]
  simp only [← decide_not, Std.not_lt]

theorem lastVisible_eq (o : Overlay) (b : Bound) :
    lastVisible o.cleared (o.base.toList.reverse.dropWhile fun e => !e.1.isBelow b) =
      o.visible.lastBelow b := by
  have hdesc : o.base.toList.reverse.Pairwise fun x y => y.1 < x.1 :=
    List.pairwise_reverse.2 o.base.ascending
  have hmono : o.base.toList.reverse.Pairwise fun x y => (!y.1.isBelow b) → !x.1.isBelow b :=
    hdesc.imp fun {x y} hxy hy => by
      have hxy : Bound.key y.1 < .key x.1 := hxy
      simp only [Key.isBelow, Bool.not_eq_true', decide_eq_false_iff_not] at hy ⊢
      grind
  rw [lastVisible_eq_find? _ (hdesc.sublist (List.dropWhile_sublist _)), find?_dropWhile hmono,
    Store.lastBelow, visible, SortedMap.toList_filter, ← List.filter_reverse]
  simp only [Bool.not_not]

/-- The nearer of the first entries of two stores is the first entry of both together. -/
theorem isFirst_firstAtLeast (o : Overlay) (k : Key) : IsFirst o.get? k (o.firstAtLeast k) := by
  have hput := Store.isFirst_firstAtLeast o.puts k
  have hseen := Store.isFirst_firstAtLeast o.visible k
  rw [firstAtLeast, firstVisible_eq]
  cases hp : o.puts.firstAtLeast k with
  | none =>
    rw [hp] at hput
    refine hseen.congr fun x hx _ => ?_
    rw [get?_eq, hput x hx, Option.none_or]
  | some e =>
    rw [hp] at hput
    cases hs : o.visible.firstAtLeast k with
    | none =>
      rw [hs] at hseen
      refine hput.congr fun x hx _ => ?_
      rw [get?_eq, hseen x hx, Option.or_none]
    | some f =>
      rw [hs] at hseen
      obtain ⟨hpe, hke, hpbefore⟩ := hput
      obtain ⟨hsf, hkf, hsbefore⟩ := hseen
      simp only
      split
      · next hlt =>
        refine ⟨by rw [get?_eq, hpbefore f.1 hkf hlt, Option.none_or, hsf], hkf, fun x hx hxf => ?_⟩
        rw [get?_eq, hpbefore x hx (Std.lt_trans hxf hlt), hsbefore x hx hxf, Option.none_or]
      · next hge =>
        refine ⟨by rw [get?_eq, hpe, Option.some_or], hke, fun x hx hxe => ?_⟩
        rw [get?_eq, hpbefore x hx hxe, hsbefore x hx (by grind), Option.none_or]

/-- The nearer of the last entries of two stores is the last entry of both together. -/
theorem isLast_lastBelow (o : Overlay) (b : Bound) : IsLast o.get? b (o.lastBelow b) := by
  have hput := Store.isLast_lastBelow o.puts b
  have hseen := Store.isLast_lastBelow o.visible b
  rw [lastBelow, lastVisible_eq]
  cases hp : o.puts.lastBelow b with
  | none =>
    rw [hp] at hput
    refine hseen.congr fun x hx _ => ?_
    rw [get?_eq, hput x hx, Option.none_or]
  | some e =>
    rw [hp] at hput
    cases hs : o.visible.lastBelow b with
    | none =>
      rw [hs] at hseen
      refine hput.congr fun x hx _ => ?_
      rw [get?_eq, hseen x hx, Option.or_none]
    | some f =>
      rw [hs] at hseen
      obtain ⟨hpe, hke, hpafter⟩ := hput
      obtain ⟨hsf, hkf, hsafter⟩ := hseen
      simp only
      split
      · next hlt =>
        refine ⟨by rw [get?_eq, hpafter f.1 hlt hkf, Option.none_or, hsf], hkf, fun x hfx hx => ?_⟩
        rw [get?_eq, hpafter x (Std.lt_trans hlt hfx) hx, hsafter x hfx hx, Option.none_or]
      · next hge =>
        refine ⟨by rw [get?_eq, hpe, Option.some_or], hke, fun x hex hx => ?_⟩
        rw [get?_eq, hpafter x hex hx, hsafter x (by grind) hx, Option.none_or]

/-! ## Writes -/

theorem get?_put (o : Overlay) (k x : Key) (v : Value) :
    (o.put k v).get? x = if x = k then some v else o.get? x := by
  have hbelow : (o.put k v).visible = o.visible := rfl
  rw [get?_eq, get?_eq, hbelow, put, SortedMap.get?_insert]
  split <;> rfl

theorem get?_removeRange (o : Overlay) (r : KeyRange) (k : Key) :
    (o.removeRange r).get? k = if r.contains k then none else o.get? k := by
  have hclear : (o.cleared.add r).contains k = (o.cleared.contains k || r.contains k) := by
    rw [Bool.eq_iff_iff, RangeSet.contains_add, Bool.or_eq_true]
  simp only [get?, removeRange, Store.get?_removeRange, hclear]
  cases r.contains k <;> simp

theorem get?_remove (o : Overlay) (k x : Key) :
    (o.remove k).get? x = if x = k then none else o.get? x := by
  have hclear : (o.cleared.add (.single k)).contains x = (o.cleared.contains x || decide (x = k)) := by
    rw [Bool.eq_iff_iff, RangeSet.contains_add, Bool.or_eq_true, KeyRange.contains_single,
      decide_eq_true_eq]
  simp only [get?, remove, SortedMap.get?_erase, hclear]
  by_cases hx : x = k <;> simp [hx]

theorem get?_adjust (o : Overlay) (k x : Key) (amount : Int64) :
    (o.adjust k amount).get? x = if x = k then Store.adjusted amount (o.get? k) else o.get? x := by
  unfold adjust Store.adjusted
  cases (o.get? k).bind Counter.decode? with
  | some n => exact get?_put o k x _
  | none =>
    by_cases hx : x = k
    · simp [hx]
    · simp [hx]

/-! ## The searches below as loops

Each round looks up one entry of the store below and, if it is cleared, moves the cursor to the end of the
cleared range that hides it. -/

/-- One round of the search upwards: the answer, or the cursor of the next round. -/
def ascend (o : Overlay) (cursor : Key) : Option Entry ⊕ Key :=
  match o.base.firstAtLeast cursor with
  | none => .inl none
  | some e =>
    match o.cleared.covering? e.1 with
    | none => .inl (some e)
    | some r =>
      match r.high with
      | .top => .inl none
      | .key k => .inr k

/-- One round of the search downwards: the answer, or the cursor of the next round. -/
def descend (o : Overlay) (cursor : Bound) : Option Entry ⊕ Bound :=
  match o.base.lastBelow cursor with
  | none => .inl none
  | some e =>
    match o.cleared.covering? e.1 with
    | none => .inl (some e)
    | some r => .inr (.key r.low)

/-- The answer of a loop that ends within a number of rounds. -/
def answerWithin {ι : Type} (round : ι → Option Entry ⊕ ι) : Nat → ι → Option (Option Entry)
  | 0, _ => none
  | n + 1, i =>
    match round i with
    | .inl answer => some answer
    | .inr next => answerWithin round n next

/-- The entry with the lesser key; of two with the same key, the one put. -/
def lesser : Option Entry → Option Entry → Option Entry
  | some e, some f => if f.1 < e.1 then some f else some e
  | some e, none => some e
  | none, f => f

def greater : Option Entry → Option Entry → Option Entry
  | some e, some f => if e.1 < f.1 then some f else some e
  | some e, none => some e
  | none, f => f

theorem countP_lt_countP {α : Type} {p q : α → Bool} {l : List α} {a : α} (h : ∀ x ∈ l, p x → q x)
    (ha : a ∈ l) (hp : p a = false) (hq : q a = true) : l.countP p < l.countP q := by
  obtain ⟨as, bs, rfl⟩ := List.append_of_mem ha
  have has := List.countP_mono_left (l := as) (p := p) (q := q) fun x hx => h x (by simp [hx])
  have hbs := List.countP_mono_left (l := bs) (p := p) (q := q) fun x hx => h x (by simp [hx])
  simp [hp, hq]
  omega

/-- A cleared range hides what lies in it. -/
theorem get?_visible_of_covering {o : Overlay} {k x : Key} {r : KeyRange}
    (h : o.cleared.covering? k = some r) (hlow : r.low ≤ x) (hhigh : Bound.key x < r.high) :
    o.visible.get? x = none := by
  have hmem := (RangeSet.covering?_eq_some_iff.1 h).1
  have hin : o.cleared.contains x = true :=
    RangeSet.contains_iff.2 ⟨r, hmem, KeyRange.contains_iff.2 ⟨hlow, hhigh⟩⟩
  rw [get?_visible, hin]
  rfl

/-- Each round of the search upwards leaves fewer entries above the cursor. -/
theorem answerWithin_ascend (o : Overlay) {n : Nat} {k : Key}
    (hn : (o.base.toList.countP fun e => decide (k ≤ e.1)) < n) :
    answerWithin o.ascend n k = some (o.visible.firstAtLeast k) := by
  induction n generalizing k with
  | zero => omega
  | succ n ih =>
    have hbase := Store.isFirst_firstAtLeast o.base k
    have hseen := Store.isFirst_firstAtLeast o.visible k
    rw [answerWithin, ascend]
    cases hf : o.base.firstAtLeast k with
    | none =>
      rw [hf] at hbase
      have hnone : IsFirst o.visible.get? k none := fun x hx => by simp [get?_visible, hbase x hx]
      simp [hseen.unique hnone]
    | some e =>
      rw [hf] at hbase
      obtain ⟨hget, hke, hbefore⟩ := hbase
      have hgap : ∀ x, k ≤ x → x < e.1 → o.visible.get? x = none := fun x hx hlt => by
        simp [get?_visible, hbefore x hx hlt]
      dsimp only
      cases hc : o.cleared.covering? e.1 with
      | none =>
        have hvis : o.visible.get? e.1 = some e.2 := by
          rw [get?_visible, RangeSet.covering?_eq_none_iff.1 hc, hget]
          rfl
        have hsome : IsFirst o.visible.get? k (some e) := ⟨hvis, hke, hgap⟩
        simp [hseen.unique hsome]
      | some r =>
        have hke' := (RangeSet.covering?_eq_some_iff.1 hc).2
        rw [KeyRange.contains_iff] at hke'
        -- from the entry to the end of the range that hides it everything is hidden
        have hcleared : ∀ x, e.1 ≤ x → Bound.key x < r.high → o.visible.get? x = none := fun x hx hlt =>
          get?_visible_of_covering hc (Std.le_trans hke'.1 hx) hlt
        dsimp only
        cases hh : r.high with
        | top =>
          have hnone : IsFirst o.visible.get? k none := fun x hx => by
            by_cases hlt : x < e.1
            · exact hgap x hx hlt
            · exact hcleared x (by grind) (by simp [hh])
          simp [hseen.unique hnone]
        | key k' =>
          rw [hh, Bound.key_lt_key] at hke'
          have hfewer := countP_lt_countP (l := o.base.toList) (p := fun x => decide (k' ≤ x.1))
            (q := fun x => decide (k ≤ x.1)) (a := e) (fun x _ hx => by
              simp only [decide_eq_true_eq] at hx ⊢
              grind) (SortedMap.mem_toList_iff.2 hget) (by simp; grind) (by simpa using hke)
          dsimp only
          rw [ih (by omega)]
          have hnext := (Store.isFirst_firstAtLeast o.visible k').of_le (k := k) (by grind)
            fun x hx hlt => by
              by_cases hxe : x < e.1
              · exact hgap x hx hxe
              · exact hcleared x (by grind) (by simpa [hh] using hlt)
          rw [hseen.unique hnext]

/-- Each round of the search downwards leaves fewer entries below the cursor. -/
theorem answerWithin_descend (o : Overlay) {n : Nat} {b : Bound}
    (hn : (o.base.toList.countP fun e => decide (Bound.key e.1 < b)) < n) :
    answerWithin o.descend n b = some (o.visible.lastBelow b) := by
  induction n generalizing b with
  | zero => omega
  | succ n ih =>
    have hbase := Store.isLast_lastBelow o.base b
    have hseen := Store.isLast_lastBelow o.visible b
    rw [answerWithin, descend]
    cases hf : o.base.lastBelow b with
    | none =>
      rw [hf] at hbase
      have hnone : IsLast o.visible.get? b none := fun x hx => by simp [get?_visible, hbase x hx]
      simp [hseen.unique hnone]
    | some e =>
      rw [hf] at hbase
      obtain ⟨hget, hke, hafter⟩ := hbase
      have hgap : ∀ x, e.1 < x → Bound.key x < b → o.visible.get? x = none := fun x hlt hx => by
        simp [get?_visible, hafter x hlt hx]
      dsimp only
      cases hc : o.cleared.covering? e.1 with
      | none =>
        have hvis : o.visible.get? e.1 = some e.2 := by
          rw [get?_visible, RangeSet.covering?_eq_none_iff.1 hc, hget]
          rfl
        have hsome : IsLast o.visible.get? b (some e) := ⟨hvis, hke, hgap⟩
        simp [hseen.unique hsome]
      | some r =>
        have hke' := (RangeSet.covering?_eq_some_iff.1 hc).2
        rw [KeyRange.contains_iff] at hke'
        -- from the start of the range that hides it up to the entry everything is hidden
        have hcleared : ∀ x, r.low ≤ x → x ≤ e.1 → o.visible.get? x = none := fun x hx hle =>
          get?_visible_of_covering hc hx (Std.lt_of_le_of_lt (b := Bound.key e.1) hle hke'.2)
        have hfewer := countP_lt_countP (l := o.base.toList)
          (p := fun x => decide (Bound.key x.1 < .key r.low)) (q := fun x => decide (Bound.key x.1 < b))
          (a := e) (fun x _ hx => by
            simp only [decide_eq_true_eq] at hx ⊢
            grind) (SortedMap.mem_toList_iff.2 hget) (by simp; grind) (by simpa using hke)
        dsimp only
        rw [ih (by omega)]
        have hnext := (Store.isLast_lastBelow o.visible (.key r.low)).of_le (b := b) (by grind)
          fun x hx hlt => by
            by_cases hxe : e.1 < x
            · exact hgap x hxe hlt
            · exact hcleared x hx (by grind)
        rw [hseen.unique hnext]

/-- Run as a loop, the search upwards ends and leads to the answer of the look-up. -/
theorem map_lesser_ascend (o : Overlay) (k : Key) :
    (answerWithin o.ascend (o.base.size + 1) k).map (lesser (o.puts.firstAtLeast k)) =
      some (o.firstAtLeast k) := by
  have hsize : (o.base.toList.countP fun e => decide (k ≤ e.1)) < o.base.size + 1 :=
    Nat.lt_succ_of_le List.countP_le_length
  rw [answerWithin_ascend o hsize, ← firstVisible_eq, Option.map_some, firstAtLeast]
  unfold lesser
  rfl

/-- Run as a loop, the search downwards ends and leads to the answer of the look-up. -/
theorem map_greater_descend (o : Overlay) (b : Bound) :
    (answerWithin o.descend (o.base.size + 1) b).map (greater (o.puts.lastBelow b)) =
      some (o.lastBelow b) := by
  have hsize : (o.base.toList.countP fun e => decide (Bound.key e.1 < b)) < o.base.size + 1 :=
    Nat.lt_succ_of_le List.countP_le_length
  rw [answerWithin_descend o hsize, ← lastVisible_eq, Option.map_some, lastBelow]
  unfold greater
  rfl

end Keyspace.Overlay
