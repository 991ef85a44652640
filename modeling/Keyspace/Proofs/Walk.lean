import Keyspace.Proofs.Scan

/-!
What a walk meets. Over a store that stays as it is these are the entries with keys in the range set and on the
walk's side of its cursor, each once and in the order of the walk; and a key of the ranges that the walk has passed
counts as read.
-/
namespace Keyspace

namespace Scan

/-- The entries of a store with keys in a range set. -/
def restrict (m : Store) (rs : RangeSet) : Store := m.filter fun e => rs.contains e.1

theorem get?_restrict (m : Store) (rs : RangeSet) (x : Key) :
    (restrict m rs).get? x = if rs.contains x then m.get? x else none :=
  SortedMap.get?_filter_key (fun y => rs.contains y) m x

/-- Whether a walk still goes to a key, which is then on its side of the cursor. -/
def faces (w : Scan) (x : Key) : Bool := if w.reverse then x.isBelow w.cursor else decide (w.cursor ≤ .key x)

/-- Whether a key comes after another one in the direction of a walk. -/
def isAfter (reverse : Bool) (k x : Key) : Bool := if reverse then decide (x < k) else decide (k < x)

def inOrder (reverse : Bool) (m : Store) : List Entry := if reverse then m.toList.reverse else m.toList

/-- The entries that a walk over a store has still to meet. -/
def remaining (w : Scan) (m : Store) : List Entry :=
  (inOrder w.reverse m).filter fun e => w.ranges.contains e.1 && w.faces e.1

/-- A walk after it has met an entry, or none. -/
def onward (w : Scan) : Option Entry → Scan
  | some e => { w with cursor := after w.reverse e.1, fetched := none }
  | none => { w with cursor := ended w.reverse, fetched := none }

theorem faces_after (w : Scan) (e : Entry) (x : Key) : (w.onward (some e)).faces x = isAfter w.reverse e.1 x := by
  rw [Bool.eq_iff_iff, faces, onward, isAfter, after]
  cases w.reverse with
  | false => simp only [Bool.false_eq_true, if_false, decide_eq_true_eq, Key.successor_le_iff, Bound.key_lt_key]
  | true => simp only [if_true, Key.isBelow, Bound.key_lt_key]

theorem faces_ended (w : Scan) (x : Key) : (w.onward none).faces x = false := by
  rw [faces, onward, ended]
  cases w.reverse with
  | false => rfl
  | true =>
    have hnil : ¬x < [] := List.not_lt_nil x
    simp [Key.isBelow, hnil]

/-- Where a walk has met an entry, it goes on to the keys after it. -/
theorem faces_of_isAfter {w : Scan} {k x : Key} (hk : w.faces k = true) (hx : isAfter w.reverse k x = true) :
    w.faces x = true := by
  revert hk hx
  rw [faces, faces, isAfter]
  cases w.reverse with
  | false =>
    simp only [Bool.false_eq_true, if_false, decide_eq_true_eq]
    intro hk hx
    have hx : Bound.key k < .key x := hx
    grind
  | true =>
    simp only [if_true, Key.isBelow, decide_eq_true_eq]
    intro hk hx
    exact Std.lt_trans (b := Bound.key k) hx hk

theorem isAfter_self (reverse : Bool) (k : Key) : isAfter reverse k k = false := by
  cases reverse <;> simp [isAfter, Std.lt_irrefl]

theorem pairwise_inOrder (reverse : Bool) (m : Store) :
    (inOrder reverse m).Pairwise fun a b => isAfter reverse a.1 b.1 = true := by
  cases reverse with
  | false => simpa [inOrder, isAfter] using m.ascending
  | true => simpa [inOrder, isAfter] using List.pairwise_reverse.2 m.ascending

/-- Of a list in order, what is after the first element that is kept is what is kept after it. -/
theorem filter_after {α : Type} {r : α → α → Prop} {l es : List α} {e : α} {p q : α → Bool} (hl : l.Pairwise r)
    (hself : ¬r e e) (h : l.filter p = e :: es) (hq : ∀ x ∈ l, q x = true ↔ p x = true ∧ r e x) :
    l.filter q = es := by
  classical
  have hes : ∀ x ∈ es, r e x := (List.pairwise_cons.1 (h ▸ hl.filter p)).1
  have hsame : l.filter q = (l.filter p).filter fun x => decide (r e x) := by
    rw [List.filter_filter]
    refine List.filter_congr fun x hx => ?_
    rw [Bool.eq_iff_iff, hq x hx, Bool.and_eq_true, decide_eq_true_eq, and_comm]
  rw [hsame, h, List.filter_cons, if_neg (by simpa using hself),
    List.filter_eq_self.2 fun x hx => by simpa using hes x hx]

theorem faces_of_mem_remaining {w : Scan} {m : Store} {e : Entry} (h : e ∈ w.remaining m) : w.faces e.1 = true :=
  (Bool.and_eq_true_iff.1 (List.mem_filter.1 h).2).2

/-- Meeting the next entry leaves the others. -/
theorem remaining_onward (w : Scan) (m : Store) :
    (w.onward (w.remaining m).head?).remaining m = (w.remaining m).tail := by
  cases hw : w.remaining m with
  | nil =>
    have hnone : ∀ e ∈ inOrder w.reverse m, ¬(w.ranges.contains e.1 && (w.onward none).faces e.1) = true := by
      intro e _
      simp [faces_ended]
    exact List.filter_eq_nil_iff.2 hnone
  | cons e es =>
    have hfaced : w.faces e.1 = true := faces_of_mem_remaining (hw ▸ List.mem_cons_self)
    refine filter_after (pairwise_inOrder w.reverse m) (by simp [isAfter_self]) hw fun x _ => ?_
    rw [List.head?_cons, show (w.onward (some e)).ranges = w.ranges from rfl, Bool.and_eq_true, Bool.and_eq_true,
      faces_after]
    exact ⟨fun h => ⟨⟨h.1, faces_of_isAfter hfaced h.2⟩, h.2⟩, fun h => ⟨h.1.1, h.2⟩⟩

/-- What comes first in a walk is the nearest of the entries in its ranges. -/
theorem head?_remaining_forward {w : Scan} (hforward : w.reverse = false) {k : Key} (hk : w.cursor = .key k)
    (m : Store) : (w.remaining m).head? = (restrict m w.ranges).firstAtLeast k := by
  have hfilter : w.remaining m = (restrict m w.ranges).toList.filter fun e => decide (k ≤ e.1) := by
    simp only [remaining, inOrder, faces, hforward, hk, restrict, SortedMap.toList_filter, List.filter_filter,
      Bool.false_eq_true, if_false, Bound.key_le_key, Bool.and_comm]
  rw [hfilter, List.head?_filter]
  rfl

theorem head?_remaining_reverse {w : Scan} (hreverse : w.reverse = true) (m : Store) :
    (w.remaining m).head? = (restrict m w.ranges).lastBelow w.cursor := by
  have hfilter : w.remaining m = (restrict m w.ranges).toList.reverse.filter fun e => e.1.isBelow w.cursor := by
    simp only [remaining, inOrder, faces, hreverse, restrict, SortedMap.toList_filter, ← List.filter_reverse,
      List.filter_filter, if_true, Bool.and_comm]
  rw [hfilter, List.head?_filter]
  rfl

theorem within_toList (m : Store) (rs : RangeSet) (x : Key) :
    within rs.ranges.toList m.get? x = (restrict m rs).get? x := by
  have hin : isWithin rs.ranges.toList x = rs.contains x := by
    rw [Bool.eq_iff_iff, isWithin_iff, RangeSet.contains_iff]
  rw [get?_restrict, within, hin]

/-! ## Steps of a walk -/

variable {σ : Type} [KeyValueReader σ]

/-- From one walk and state to a later walk and state: what the walk has passed in between counts as read. -/
structure Leads (R : Reading σ) (m : Store) (w : Scan) (s : σ) (w' : Scan) (s' : σ) : Prop where
  shows : R.shows s' m
  mono : ∀ x, R.seen s x → R.seen s' x
  ranges : w'.ranges = w.ranges
  reverse : w'.reverse = w.reverse
  fetched : w'.fetched = none
  seen : ∀ x, w.ranges.contains x = true → w.faces x = true → w'.faces x = false → R.seen s' x

variable {R : Reading σ} {m : Store} {w w' w'' : Scan} {s s' s'' : σ}

theorem Leads.refl (h : R.shows s m) (hw : w.fetched = none) : Leads R m w s w s :=
  ⟨h, fun _ hx => hx, rfl, rfl, hw, fun x _ hx hx' => by rw [hx] at hx'; cases hx'⟩

theorem Leads.trans (h : Leads R m w s w' s') (h' : Leads R m w' s' w'' s'') : Leads R m w s w'' s'' := by
  refine ⟨h'.shows, fun x hx => h'.mono x (h.mono x hx), h'.ranges.trans h.ranges, h'.reverse.trans h.reverse,
    h'.fetched, ?_⟩
  intro x hx hface hpassed
  cases hface' : w'.faces x with
  | false => exact h'.mono x (h.seen x hx hface hface')
  | true => exact h'.seen x (by rw [h.ranges, hx]) hface' hpassed

/-- A fetch finds the first entry that the walk has still to meet. -/
theorem find_apply (w : Scan) (hdown : w.reverse = true → R.Downward) (h : R.shows s m) : ∃ s',
    w.find s = (.ok (w.remaining m).head?, s') ∧ R.shows s' m ∧ (∀ x, R.seen s x → R.seen s' x) ∧
      ∀ x, w.ranges.contains x = true → w.faces x = true → (w.onward (w.remaining m).head?).faces x = false →
        R.seen s' x := by
  have hin : ∀ x, w.ranges.contains x = true → isWithin w.ranges.ranges.toList x = true := fun x hx =>
    isWithin_iff.2 (RangeSet.contains_iff.1 hx)
  cases hr : w.reverse with
  | false =>
    cases hc : w.cursor with
    | top =>
      have hfaces : ∀ x, w.faces x = false := fun x => by simp [faces, hr, hc]
      have hnone : w.remaining m = [] := List.filter_eq_nil_iff.2 fun e _ => by simp [hfaces]
      refine ⟨s, ?_, h, fun _ hx => hx, fun x _ hx => by rw [hfaces] at hx; cases hx⟩
      rw [find, hr, hc, hnone]
      rfl
    | key k =>
      obtain ⟨found, s', hrun, hshows, hmono, hfirst, hseen⟩ := firstIn_found w.ranges.canonical h k
      have hfound : found = (w.remaining m).head? := by
        rw [head?_remaining_forward hr hc]
        exact (hfirst.congr fun x _ _ => within_toList m w.ranges x).unique
          ((restrict m w.ranges).isFirst_firstAtLeast k)
      rw [← hfound]
      refine ⟨s', ?_, hshows, hmono, fun x hx hface hpassed => hseen x (hin x hx) ?_ ?_⟩
      · rw [find, hr, hc]
        exact hrun
      · simpa [faces, hr, hc] using hface
      · rintro e rfl
        simpa [faces_after, isAfter, hr] using hpassed
  | true =>
    have hcanonical : Canonical w.ranges.ranges.toList.reverse.reverse := by
      rw [List.reverse_reverse]
      exact w.ranges.canonical
    have hreversed : ∀ x, isWithin w.ranges.ranges.toList.reverse x = isWithin w.ranges.ranges.toList x := fun x =>
      List.any_reverse
    obtain ⟨found, s', hrun, hshows, hmono, hlast, hseen⟩ := lastIn_found (hdown hr) hcanonical h w.cursor
    have hfound : found = (w.remaining m).head? := by
      rw [head?_remaining_reverse hr]
      refine (hlast.congr fun x _ _ => ?_).unique ((restrict m w.ranges).isLast_lastBelow w.cursor)
      rw [← within_toList, within, within, hreversed]
    rw [← hfound]
    refine ⟨s', ?_, hshows, hmono, fun x hx hface hpassed => hseen x ((hreversed x).trans (hin x hx)) ?_ ?_⟩
    · rw [find, hr]
      exact hrun
    · simpa [faces, hr, Key.isBelow] using hface
    · rintro e rfl
      simpa [faces_after, isAfter, hr] using hpassed

/-- Fetching ahead takes a walk past the first entry that it has still to meet. -/
theorem fill_apply (hw : w.fetched = none) (hdown : w.reverse = true → R.Downward) (h : R.shows s m) : ∃ s',
    w.fill s =
      (({ w.onward (w.remaining m).head? with fetched := (w.remaining m).head? }, .ok (w.remaining m).head?), s') ∧
      Leads R m w s (w.onward (w.remaining m).head?) s' := by
  obtain ⟨s', hrun, hshows, hmono, hseen⟩ := find_apply w hdown h
  refine ⟨s', ?_, ?_⟩
  · rw [fill, hw]
    refine (StoreM.stateM_bind hrun).trans ?_
    cases (w.remaining m).head? <;> rfl
  · cases hfound : (w.remaining m).head? with
    | none => exact ⟨hshows, hmono, rfl, rfl, rfl, hfound ▸ hseen⟩
    | some e => exact ⟨hshows, hmono, rfl, rfl, rfl, hfound ▸ hseen⟩

/-- A walk takes the first entry that it has still to meet. -/
theorem next_apply (hw : w.fetched = none) (hdown : w.reverse = true → R.Downward) (h : R.shows s m) : ∃ s',
    w.next s = ((w.onward (w.remaining m).head?, .ok (w.remaining m).head?), s') ∧
      Leads R m w s (w.onward (w.remaining m).head?) s' := by
  obtain ⟨s', hfill, hleads⟩ := fill_apply hw hdown h
  refine ⟨s', (StoreM.stateM_bind hfill).trans ?_, hleads⟩
  cases (w.remaining m).head? <;> rfl

theorem take_none (h : w.next s = ((w', .ok none), s')) (n : Nat) : w.take (n + 1) s = ((w', []), s') :=
  StoreM.stateM_bind h

theorem take_error {why : StoreError} (h : w.next s = ((w', .error why), s')) (n : Nat) :
    w.take (n + 1) s = ((w', [.error why]), s') :=
  StoreM.stateM_bind h

theorem take_some {e : Entry} {items : List (Except StoreError Entry)} (h : w.next s = ((w', .ok (some e)), s'))
    {n : Nat} (hrest : w'.take n s' = ((w'', items), s'')) : w.take (n + 1) s = ((w'', .ok e :: items), s'') :=
  (StoreM.stateM_bind h).trans (StoreM.stateM_bind hrest)

/-- A number of steps meets that many of the remaining entries; with a step to spare it finds the end. -/
theorem take_apply (n : Nat) (hw : w.fetched = none) (hdown : w.reverse = true → R.Downward) (h : R.shows s m) :
    ∃ w' s', w.take n s = ((w', ((w.remaining m).take n).map .ok), s') ∧ Leads R m w s w' s' ∧
      ((w.remaining m).length < n → w' = w.onward none) := by
  induction n generalizing w s with
  | zero => exact ⟨w, s, rfl, .refl h hw, fun hn => absurd hn (Nat.not_lt_zero _)⟩
  | succ n ih =>
    obtain ⟨s', hrun, hleads⟩ := next_apply hw hdown h
    have hrest := remaining_onward w m
    cases hrem : w.remaining m with
    | nil =>
      rw [hrem] at hrun hleads
      exact ⟨_, s', take_none hrun n, hleads, fun _ => rfl⟩
    | cons e es =>
      rw [hrem] at hrun hleads hrest
      obtain ⟨w'', s'', hrun', hleads', hend⟩ := ih hleads.fetched hdown hleads.shows
      rw [hrest] at hrun' hend
      exact ⟨w'', s'', take_some hrun hrun', hleads.trans hleads',
        fun hn => hend (Nat.lt_of_succ_lt_succ hn)⟩

/-- A walk over a store with no more entries than it is known to have meets all that remain and ends. -/
theorem items_apply (hw : w.fetched = none) (hdown : w.reverse = true → R.Downward) (h : R.shows s m)
    (hcount : (w.remaining m).length ≤ KeyValueReader.entryCount s) : ∃ s',
    w.items s = ((w.onward none, (w.remaining m).map .ok), s') ∧ Leads R m w s (w.onward none) s' := by
  obtain ⟨w', s', hrun, hleads, hend⟩ := take_apply (KeyValueReader.entryCount s + 1) hw hdown h
  obtain rfl := hend (Nat.lt_succ_of_le hcount)
  rw [List.take_of_length_le (Nat.le_succ_of_le hcount)] at hrun
  exact ⟨s', hrun, hleads⟩

/-- What is made of the entries that remain, with the first failure, as long as there are steps enough. -/
theorem images_apply {α : Type} (f : Entry → Except StoreError α) {n : Nat} (hn : (w.remaining m).length < n)
    (hw : w.fetched = none) (hdown : w.reverse = true → R.Downward) (h : R.shows s m) : ∃ s',
    images f n w s = ((w.remaining m).mapM f, s') := by
  induction n generalizing w s with
  | zero => exact absurd hn (Nat.not_lt_zero _)
  | succ n ih =>
    obtain ⟨s', hrun, hleads⟩ := next_apply hw hdown h
    have hrest := remaining_onward w m
    rw [images, StoreM.bind_apply, StoreM.lift_apply, hrun]
    cases hrem : w.remaining m with
    | nil => exact ⟨s', rfl⟩
    | cons e es =>
      rw [hrem] at hleads hrest hn
      rw [List.head?_cons] at hleads hrest
      rw [List.tail_cons] at hrest
      obtain ⟨s'', hrun'⟩ := ih (by rw [hrest]; exact Nat.lt_of_succ_lt_succ hn) hleads.fetched hdown hleads.shows
      rw [hrest] at hrun'
      dsimp only [List.head?_cons]
      rw [StoreM.bind_apply, StoreM.ofExcept_apply]
      dsimp only
      rw [StoreM.bind_apply, StoreM.ofExcept_apply, List.mapM_cons]
      cases f e with
      | error why => exact ⟨s', rfl⟩
      | ok a =>
        refine ⟨s'', (StoreM.bind_apply _ _ _).trans ?_⟩
        rw [hrun']
        cases List.mapM f es <;> rfl

theorem length_remaining_le (w : Scan) (m : Store) : (w.remaining m).length ≤ m.size := by
  refine Nat.le_trans (List.length_filter_le _ _) ?_
  rw [inOrder, SortedMap.size]
  split
  · exact Nat.le_of_eq List.length_reverse
  · exact Nat.le_refl _

/-! ## Whole walks -/

/-- The entries of a store with keys in a range set, from a start key on if there is one, in the order of a walk. -/
def expected (m : Store) (rs : RangeSet) (start : Option Key) (reverse : Bool) : List Entry :=
  (inOrder reverse m).filter fun e =>
    rs.contains e.1 && start.all fun k => if reverse then decide (e.1 ≤ k) else decide (k ≤ e.1)

theorem faces_create (rs : RangeSet) (start : Option Key) (reverse : Bool) (x : Key) :
    (create rs start reverse).faces x =
      start.all fun k => if reverse then decide (x ≤ k) else decide (k ≤ x) := by
  cases start with
  | none => cases reverse <;> simp [create, faces, beginning, Key.isBelow]
  | some k => cases reverse <;> simp [create, seek, faces, before, Key.isBelow, Key.lt_successor_iff]

theorem ranges_create (rs : RangeSet) (start : Option Key) (reverse : Bool) :
    (create rs start reverse).ranges = rs := by cases start <;> rfl

theorem reverse_create (rs : RangeSet) (start : Option Key) (reverse : Bool) :
    (create rs start reverse).reverse = reverse := by cases start <;> rfl

theorem fetched_create (rs : RangeSet) (start : Option Key) (reverse : Bool) :
    (create rs start reverse).fetched = none := by cases start <;> rfl

theorem remaining_create (m : Store) (rs : RangeSet) (start : Option Key) (reverse : Bool) :
    (create rs start reverse).remaining m = expected m rs start reverse := by
  simp only [remaining, expected, faces_create, ranges_create, reverse_create]

theorem expected_reverse (m : Store) (rs : RangeSet) : expected m rs none true = (expected m rs none false).reverse := by
  rw [expected, expected, ← List.filter_reverse]
  rfl

/-- A forward walk over a whole range set meets its entries in ascending order, and every key of the set then
counts as read. -/
theorem items_create (R : Reading σ) {rs : RangeSet} {s : σ} {m : Store} (h : R.shows s m)
    (hcount : (restrict m rs).size ≤ KeyValueReader.entryCount s) : ∃ s',
    (create rs none false).items s =
      (((create rs none false).onward none, (restrict m rs).toList.map .ok), s') ∧ R.shows s' m ∧
      ∀ x, rs.contains x = true → R.seen s' x := by
  have hall : (create rs none false).remaining m = (restrict m rs).toList := by
    simp [remaining_create, expected, inOrder, restrict]
  obtain ⟨s', hrun, hleads⟩ := items_apply (w := create rs none false) rfl nofun h (by rw [hall]; exact hcount)
  rw [hall] at hrun
  exact ⟨s', hrun, hleads.shows, fun x hx => hleads.seen x hx (faces_create ..) (faces_ended ..)⟩

/-- A walk that has ended looks nothing up. -/
theorem fill_ended (w : Scan) (s : σ) : (w.onward none).fill s = ((w.onward none, .ok none), s) := by
  have hlast : ∀ rs : List KeyRange, (lastIn (.key []) rs : StoreM σ (Option Entry)) s = (.ok none, s) := by
    intro rs
    induction rs with
    | nil => rfl
    | cons r rs ih =>
      have hlow : ¬r.low.isBelow (.key []) = true := by
        rw [Key.isBelow, decide_eq_true_eq]
        exact List.not_lt_nil r.low
      rw [lastIn, if_neg hlow, ih]
  have hfind : (w.onward none).find s = (.ok none, s) := by
    rw [find, onward, ended]
    cases w.reverse with
    | false => rfl
    | true => exact hlast _
  exact StoreM.stateM_bind hfind

theorem next_ended (w : Scan) (s : σ) : (w.onward none).next s = ((w.onward none, .ok none), s) :=
  StoreM.stateM_bind (fill_ended w s)

structure Yields (w : Scan) (s : σ) (es : List Entry) : Prop where
  take : ∀ n, (w.take n s).1.2 = (es.take n).map .ok
  items : (w.items s).1.2 = es.map .ok
  ends : (w.items s).1.1.next (w.items s).2 = (((w.items s).1.1, .ok none), (w.items s).2)

theorem yields_expected (R : Reading σ) (hdown : R.Downward) (h : R.shows s m)
    (hcount : m.size ≤ KeyValueReader.entryCount s) (rs : RangeSet) (start : Option Key) (reverse : Bool) :
    Yields (create rs start reverse) s (expected m rs start reverse) := by
  have hw := fetched_create rs start reverse
  obtain ⟨s', hitems, -⟩ := items_apply hw (fun _ => hdown) h (Nat.le_trans (length_remaining_le _ m) hcount)
  rw [remaining_create] at hitems
  refine ⟨fun n => ?_, by rw [hitems], by rw [hitems]; exact next_ended _ s'⟩
  obtain ⟨w', s'', htake, -⟩ := take_apply n hw (fun _ => hdown) h
  rw [htake, remaining_create]

end Scan

end Keyspace
