import Keyspace.Proofs.Nearest
import Keyspace.Proofs.RangeSet
import Keyspace.Proofs.StoreM
import Keyspace.Scan

/-!
What one fetch of a walk finds. Over a state that is read as a plain store it finds the nearest entry of that store
with a key in the ranges, in either direction, and every key of the ranges that it passes over counts as read. Run
as a loop that looks for the next range by binary search, it ends within one round more than there are ranges.
-/
namespace Keyspace

/-- How the states of a reader are read as plain stores, and which keys count as read in them. -/
structure Reading (σ : Type) [KeyValueReader σ] where
  shows : σ → Store → Prop
  seen : σ → Key → Prop
  /-- A search finds what the plain store has, and then counts as read what it passed over and what it found. -/
  firstAtLeast : ∀ {s m}, shows s m → ∀ k, ∃ s',
    KeyValueReader.firstAtLeast k s = (.ok (m.firstAtLeast k), s') ∧ shows s' m ∧
      (∀ x, seen s x → seen s' x) ∧
      ∀ x, k ≤ x → (∀ e ∈ m.firstAtLeast k, x ≤ e.1) → seen s' x

/-- A search downwards finds what the plain store has, and then counts as read what it passed over and what it
found. -/
def Reading.Downward {σ : Type} [KeyValueReader σ] (R : Reading σ) : Prop :=
  ∀ {s m}, R.shows s m → ∀ b, ∃ s',
    KeyValueReader.lastBelow b s = (.ok (m.lastBelow b), s') ∧ R.shows s' m ∧
      (∀ x, R.seen s x → R.seen s' x) ∧
      ∀ x, Bound.key x < b → (∀ e ∈ m.lastBelow b, e.1 ≤ x) → R.seen s' x

namespace Scan

def isWithin (rs : List KeyRange) (x : Key) : Bool := rs.any (·.contains x)

def within (rs : List KeyRange) (look : Key → Option Value) (x : Key) : Option Value :=
  if isWithin rs x then look x else none

theorem isWithin_cons {r : KeyRange} {rs : List KeyRange} {x : Key} :
    isWithin (r :: rs) x = (r.contains x || isWithin rs x) := rfl

theorem isWithin_iff {rs : List KeyRange} {x : Key} : isWithin rs x = true ↔ Covers rs x := by
  simp [isWithin, Covers]

/-- The keys of later ranges lie above the first range. -/
theorem high_lt_of_isWithin {r : KeyRange} {rs : List KeyRange} {x : Key} (h : Canonical (r :: rs))
    (hx : isWithin rs x = true) : r.high < .key x := by
  obtain ⟨y, hy, hxy⟩ := isWithin_iff.1 hx
  have := (List.pairwise_cons.1 h.apart).1 y hy
  rw [KeyRange.contains_iff] at hxy
  grind

/-- A range that ends below a key has no keys from there on. -/
theorem contains_eq_false_of_high_le {r : KeyRange} {k x : Key} (h : r.high ≤ .key k) (hx : k ≤ x) :
    r.contains x = false := by
  have hx' : Bound.key k ≤ .key x := hx
  rw [KeyRange.contains_eq_false_iff]
  exact .inr (Std.le_trans h hx')

/-- Where a search in ascending ranges begins, nothing of the ranges has been left out. -/
theorem start_le_of_isWithin {r : KeyRange} {rs : List KeyRange} (hrs : Canonical (r :: rs)) {k x : Key}
    (hx : isWithin (r :: rs) x = true) (hk : k ≤ x) : (if k < r.low then r.low else k) ≤ x := by
  have hlow : r.low ≤ x := by
    rw [isWithin_cons, Bool.or_eq_true, KeyRange.contains_iff] at hx
    rcases hx with ⟨hlow, -⟩ | hx
    · exact hlow
    · have hhigh : Bound.key r.low < r.high := hrs.nonempty r List.mem_cons_self
      have hlt : Bound.key r.low < .key x := Std.lt_trans hhigh (high_lt_of_isWithin hrs hx)
      exact Std.le_of_lt hlt
  split
  · exact hlow
  · exact hk

theorem within_of_isWithin {rs : List KeyRange} {look : Key → Option Value} {x : Key}
    (h : isWithin rs x = true → look x = none) : within rs look x = none := by
  unfold within
  split
  · next hx => exact h hx
  · rfl

variable {σ : Type} [KeyValueReader σ] (R : Reading σ)

/-- What a search from a key on in some ranges comes to: the next entry there, and that all keys of the ranges up to
this entry count as read. -/
structure Found (rs : List KeyRange) (m : Store) (k : Key) (s : σ) (found : Option Entry) (s' : σ) : Prop where
  shows : R.shows s' m
  mono : ∀ x, R.seen s x → R.seen s' x
  first : IsFirst (within rs m.get?) k found
  seen : ∀ x, isWithin rs x = true → k ≤ x → (∀ e ∈ found, x ≤ e.1) → R.seen s' x

variable {R} {r : KeyRange} {rs : List KeyRange} {m : Store} {k : Key} {s s' s'' : σ} {found : Option Entry}

/-- A range below the start makes no difference. -/
theorem Found.skip (h : Found R rs m k s found s') (hbelow : r.high ≤ .key k) :
    Found R (r :: rs) m k s found s' := by
  have hsame : ∀ x, k ≤ x → isWithin (r :: rs) x = isWithin rs x := fun x hx => by
    rw [isWithin_cons, contains_eq_false_of_high_le hbelow hx, Bool.false_or]
  refine ⟨h.shows, h.mono, h.first.congr ?_, ?_⟩
  · intro x hx _
    rw [within, within, hsame x hx]
  · intro x hx hk hle
    exact h.seen x (hsame x hk ▸ hx) hk hle

/-- A search that has passed over an entry outside the ranges goes on above it. -/
theorem Found.jump {e : Entry} (h : Found R rs m e.1 s' found s'') (hmono : ∀ x, R.seen s x → R.seen s' x)
    (hk : k ≤ e.1) (hgap : ∀ x, k ≤ x → x < e.1 → within rs m.get? x = none)
    (hseen : ∀ x, isWithin rs x = true → k ≤ x → x ≤ e.1 → R.seen s' x) : Found R rs m k s found s'' := by
  refine ⟨h.shows, fun x hx => h.mono x (hmono x hx), h.first.of_le hk hgap, ?_⟩
  intro x hx hkx hle
  by_cases hxe : x ≤ e.1
  · exact h.mono x (hseen x hx hkx hxe)
  · exact h.seen x hx (Std.le_of_lt (Std.not_le.1 hxe)) hle

/-- The next entry in some ascending ranges is found. -/
theorem firstIn_found {rs : List KeyRange} (hrs : Canonical rs) {s : σ} (h : R.shows s m) (k : Key) :
    ∃ found s', firstIn k rs s = (.ok found, s') ∧ Found R rs m k s found s' := by
  induction rs generalizing k s with
  | nil => exact ⟨none, s, rfl, h, fun _ hx => hx, fun _ _ => rfl, fun _ hx => by cases hx⟩
  | cons r rs ih =>
    rw [firstIn]
    split
    · have hfrom : ∀ x, isWithin (r :: rs) x = true → k ≤ x → (if k < r.low then r.low else k) ≤ x :=
        fun x hx hkx => start_le_of_isWithin hrs hx hkx
      obtain ⟨start, hstart⟩ : ∃ start, (if k < r.low then r.low else k) = start := ⟨_, rfl⟩
      have hk : k ≤ start := by grind
      have hlow : r.low ≤ start := by grind
      rw [hstart] at hfrom ⊢
      obtain ⟨s', hrun, hshows, hmono, hseen⟩ := R.firstAtLeast h start
      have hfirst := m.isFirst_firstAtLeast start
      rw [StoreM.bind_ok hrun]
      cases hf : m.firstAtLeast start with
      | none =>
        rw [hf] at hfirst hseen
        exact ⟨none, s', rfl, hshows, hmono, fun x hx => within_of_isWithin fun hin => hfirst x (hfrom x hin hx),
          fun x hx hkx _ => hseen x (hfrom x hx hkx) (by simp)⟩
      | some e =>
        rw [hf] at hfirst hseen
        obtain ⟨hget, hse, hbefore⟩ := hfirst
        have hke : k ≤ e.1 := Std.le_trans hk hse
        have hgap : ∀ x, k ≤ x → x < e.1 → within (r :: rs) m.get? x = none := fun x hx hlt =>
          within_of_isWithin fun hin => hbefore x (hfrom x hin hx) hlt
        have hpassed : ∀ x, isWithin (r :: rs) x = true → k ≤ x → x ≤ e.1 → R.seen s' x :=
          fun x hx hkx hxe => hseen x (hfrom x hx hkx) (by simpa using hxe)
        dsimp only
        split
        · next hin =>
          refine ⟨some e, s', rfl, hshows, hmono, ⟨?_, hke, hgap⟩, fun x hx hkx hle => hpassed x hx hkx (hle e rfl)⟩
          rw [within, isWithin_cons, hin, Bool.true_or, if_pos rfl, hget]
        · next hin =>
          have hbelow : r.high ≤ .key e.1 := by
            rw [Bool.not_eq_true, KeyRange.contains_eq_false_iff] at hin
            have : Bound.key start ≤ .key e.1 := hse
            have : Bound.key r.low ≤ .key start := hlow
            grind
          obtain ⟨found, s'', hrest, hfound⟩ := ih hrs.tail hshows e.1
          exact ⟨found, s'', hrest, (hfound.skip hbelow).jump hmono hke hgap hpassed⟩
    · next hbelow =>
      obtain ⟨found, s', hrun, hfound⟩ := ih hrs.tail h k
      exact ⟨found, s', hrun, hfound.skip (Std.not_lt.1 (by simpa [Key.isBelow] using hbelow))⟩

/-! ## Downwards -/

structure FoundBelow (R : Reading σ) (rs : List KeyRange) (m : Store) (b : Bound) (s : σ) (found : Option Entry)
    (s' : σ) : Prop where
  shows : R.shows s' m
  mono : ∀ x, R.seen s x → R.seen s' x
  last : IsLast (within rs m.get?) b found
  seen : ∀ x, isWithin rs x = true → Bound.key x < b → (∀ e ∈ found, e.1 ≤ x) → R.seen s' x

variable {b : Bound}

/-- A range above the start makes no difference. -/
theorem FoundBelow.skip (h : FoundBelow R rs m b s found s') (habove : b ≤ .key r.low) :
    FoundBelow R (r :: rs) m b s found s' := by
  have hsame : ∀ x, Bound.key x < b → isWithin (r :: rs) x = isWithin rs x := fun x hx => by
    have hout : r.contains x = false := KeyRange.contains_eq_false_iff.2 (.inl (Std.lt_of_lt_of_le hx habove))
    rw [isWithin_cons, hout, Bool.false_or]
  refine ⟨h.shows, h.mono, h.last.congr ?_, ?_⟩
  · intro x hx _
    rw [within, within, hsame x hx]
  · intro x hx hb hle
    exact h.seen x (hsame x hb ▸ hx) hb hle

/-- A search that has passed over an entry outside the ranges goes on below it. -/
theorem FoundBelow.jump {e : Entry} (h : FoundBelow R rs m (.key e.1.successor) s' found s'')
    (hmono : ∀ x, R.seen s x → R.seen s' x) (hb : Bound.key e.1 < b)
    (hgap : ∀ x, e.1 < x → Bound.key x < b → within rs m.get? x = none)
    (hseen : ∀ x, isWithin rs x = true → Bound.key x < b → e.1 ≤ x → R.seen s' x) :
    FoundBelow R rs m b s found s'' := by
  have hle : Bound.key e.1.successor ≤ b := Key.successor_le_iff.2 hb
  refine ⟨h.shows, fun x hx => h.mono x (hmono x hx), h.last.of_le hle ?_, ?_⟩
  · intro x hx hxb
    exact hgap x (Key.successor_le_iff.1 hx) hxb
  · intro x hx hxb hfound
    by_cases hex : e.1 ≤ x
    · exact h.mono x (hseen x hx hxb hex)
    · have hxe : Bound.key x < .key e.1.successor := Key.lt_successor_iff.2 (Std.le_of_lt (Std.not_le.1 hex))
      exact h.seen x hx hxe hfound

/-- The keys of descending ranges lie below the end of the first one. -/
theorem lt_high_of_isWithin {r : KeyRange} {rs : List KeyRange} (hrs : Canonical (rs.reverse ++ [r])) {x : Key}
    (hx : isWithin (r :: rs) x = true) : Bound.key x < r.high := by
  rw [isWithin_cons, Bool.or_eq_true, KeyRange.contains_iff] at hx
  rcases hx with ⟨-, hx⟩ | hx
  · exact hx
  · obtain ⟨y, hy, hxy⟩ := isWithin_iff.1 hx
    have hxy : Bound.key x < y.high := (KeyRange.contains_iff.1 hxy).2
    have hyr : y.high < .key r.low := hrs.high_lt_low (List.mem_reverse.2 hy) (List.mem_singleton_self r)
    have hr : Bound.key r.low < r.high := hrs.nonempty r (by simp)
    exact Std.lt_trans (Std.lt_trans hxy hyr) hr

/-- The last entry in some descending ranges is found. -/
theorem lastIn_found (hdown : R.Downward) {rs : List KeyRange} (hrs : Canonical rs.reverse) {s : σ}
    (h : R.shows s m) (b : Bound) :
    ∃ found s', lastIn b rs s = (.ok found, s') ∧ FoundBelow R rs m b s found s' := by
  induction rs generalizing b s with
  | nil => exact ⟨none, s, rfl, h, fun _ hx => hx, fun _ _ => rfl, fun _ hx => by cases hx⟩
  | cons r rs ih =>
    rw [List.reverse_cons] at hrs
    have hrest : Canonical rs.reverse := hrs.sublist (List.sublist_append_left ..)
    have hbelow : ∀ x, isWithin (r :: rs) x = true → Bound.key x < r.high := fun x => lt_high_of_isWithin hrs
    rw [lastIn]
    split
    · obtain ⟨stop, hstop⟩ : ∃ stop, b.min r.high = stop := ⟨_, rfl⟩
      have hmin : ∀ x : Key, Bound.key x < stop ↔ Bound.key x < b ∧ Bound.key x < r.high := fun x =>
        hstop ▸ Bound.lt_min_iff
      rw [hstop]
      obtain ⟨s', hrun, hshows, hmono, hseen⟩ := hdown h stop
      have hlast := m.isLast_lastBelow stop
      rw [StoreM.bind_ok hrun]
      cases hf : m.lastBelow stop with
      | none =>
        rw [hf] at hlast hseen
        exact ⟨none, s', rfl, hshows, hmono,
          fun x hx => within_of_isWithin fun hin => hlast x ((hmin x).2 ⟨hx, hbelow x hin⟩),
          fun x hx hxb _ => hseen x ((hmin x).2 ⟨hxb, hbelow x hx⟩) (by simp)⟩
      | some e =>
        rw [hf] at hlast hseen
        obtain ⟨hget, hes, hafter⟩ := hlast
        obtain ⟨heb, her⟩ := (hmin e.1).1 hes
        have hgap : ∀ x, e.1 < x → Bound.key x < b → within (r :: rs) m.get? x = none := fun x hx hxb =>
          within_of_isWithin fun hin => hafter x hx ((hmin x).2 ⟨hxb, hbelow x hin⟩)
        have hpassed : ∀ x, isWithin (r :: rs) x = true → Bound.key x < b → e.1 ≤ x → R.seen s' x :=
          fun x hx hxb hex => hseen x ((hmin x).2 ⟨hxb, hbelow x hx⟩) (by simpa using hex)
        dsimp only
        split
        · next hin =>
          refine ⟨some e, s', rfl, hshows, hmono, ⟨?_, heb, hgap⟩, fun x hx hxb hle => hpassed x hx hxb (hle e rfl)⟩
          rw [within, isWithin_cons, hin, Bool.true_or, if_pos rfl, hget]
        · next hin =>
          have hlow : Bound.key e.1 < .key r.low := by
            rw [Bool.not_eq_true, KeyRange.contains_eq_false_iff] at hin
            exact hin.resolve_right (Std.not_le.2 her)
          obtain ⟨found, s'', hrun', hfound⟩ := ih hrest hshows (.key e.1.successor)
          exact ⟨found, s'', hrun', (hfound.skip (Key.successor_le_iff.2 hlow)).jump hmono heb hgap hpassed⟩
    · next habove =>
      obtain ⟨found, s', hrun, hfound⟩ := ih hrest h b
      exact ⟨found, s', hrun, hfound.skip (Std.not_lt.1 (by simpa [Key.isBelow] using habove))⟩

/-! ## Fetches as loops

Each round finds the next range by binary search and looks up one entry; where this lies outside the range, the
cursor moves on to it. -/

/-- One round of a fetch upwards: the answer, or the cursor of the next round. -/
def ascend (rs : RangeSet) (k : Key) : StoreM σ (Option Entry ⊕ Key) :=
  match rs.atOrAfter? k with
  | none => return .inl none
  | some r => do
    match ← KeyValueReader.firstAtLeast (if k < r.low then r.low else k) with
    | none => return .inl none
    | some e => return if r.contains e.1 then .inl (some e) else .inr e.1

/-- One round of a fetch downwards: the answer, or the cursor of the next round. -/
def descend (rs : RangeSet) (b : Bound) : StoreM σ (Option Entry ⊕ Bound) :=
  match rs.before? b with
  | none => return .inl none
  | some r => do
    match ← KeyValueReader.lastBelow (b.min r.high) with
    | none => return .inl none
    | some e => return if r.contains e.1 then .inl (some e) else .inr (.key e.1.successor)

/-- The answer of a loop that ends within a number of rounds. -/
def answerWithin {ι : Type} (round : ι → StoreM σ (Option Entry ⊕ ι)) : Nat → ι → StoreM σ (Option (Option Entry))
  | 0, _ => return none
  | n + 1, i => do
    match ← round i with
    | .inl answer => return some answer
    | .inr next => answerWithin round n next

/-- The entry that a walk meets next, if the loop comes to it within a number of rounds. -/
def findWithin (n : Nat) (w : Scan) : StoreM σ (Option (Option Entry)) :=
  if w.reverse then answerWithin (descend w.ranges) n w.cursor
  else match w.cursor with
    | .key k => answerWithin (ascend w.ranges) n k
    | .top => return some none

structure Ordered (σ : Type) [KeyValueReader σ] : Prop where
  firstAtLeast : ∀ {k : Key} {e : Entry} {s s' : σ}, KeyValueReader.firstAtLeast k s = (.ok (some e), s') → k ≤ e.1
  lastBelow : ∀ {b : Bound} {e : Entry} {s s' : σ},
    KeyValueReader.lastBelow b s = (.ok (some e), s') → Bound.key e.1 < b

/-- Each round of a fetch upwards leaves a range behind. -/
theorem answerWithin_ascend (hordered : Ordered σ) {rs : RangeSet} {past ahead : List KeyRange}
    (hsplit : rs.ranges.toList = past ++ ahead) {k : Key} (hpast : ∀ r ∈ past, ¬k.isBelow r.high = true) {n : Nat}
    (hn : ahead.length < n) (s : σ) : answerWithin (ascend rs) n k s = (some <$> firstIn k ahead) s := by
  induction ahead generalizing past k n s with
  | nil =>
    obtain ⟨n, rfl⟩ := Nat.exists_eq_succ_of_ne_zero (Nat.ne_of_gt hn)
    have hround : rs.atOrAfter? k = none := by
      rw [RangeSet.atOrAfter?_eq_find?, hsplit, List.append_nil]
      exact List.find?_eq_none.2 hpast
    rw [answerWithin, ascend, hround]
    rfl
  | cons r ahead ih =>
    have hsplit' : rs.ranges.toList = (past ++ [r]) ++ ahead := by simp [hsplit]
    have hleave : ∀ {k' : Key}, k ≤ k' → ¬k'.isBelow r.high = true → ∀ x ∈ past ++ [r], ¬k'.isBelow x.high = true := by
      intro k' hk hr x hx
      rcases List.mem_append.1 hx with hx | hx
      · have := hpast x hx
        have hk : Bound.key k ≤ .key k' := hk
        simp only [Key.isBelow, decide_eq_true_eq] at this ⊢
        grind
      · exact List.mem_singleton.1 hx ▸ hr
    rw [List.length_cons] at hn
    cases hr : k.isBelow r.high with
    | false =>
      have hr' : ¬k.isBelow r.high = true := by simp [hr]
      rw [firstIn, if_neg hr', ih hsplit' (hleave (Std.le_refl k) hr') (by omega)]
    | true =>
      obtain ⟨n, rfl⟩ := Nat.exists_eq_succ_of_ne_zero (Nat.ne_of_gt (Nat.lt_of_le_of_lt (Nat.zero_le _) hn))
      have hround : rs.atOrAfter? k = some r := by
        rw [RangeSet.atOrAfter?_eq_find?, hsplit]
        exact List.find?_eq_some_iff_append.2 ⟨hr, past, ahead, rfl, by simpa using hpast⟩
      rw [answerWithin, StoreM.bind_apply, ascend, hround, firstIn, if_pos hr, StoreM.map_apply]
      dsimp only
      rw [StoreM.bind_apply, StoreM.bind_apply]
      rcases hrun : KeyValueReader.firstAtLeast (if k < r.low then r.low else k) s with ⟨why | - | e, s'⟩
      · rfl
      · rfl
      · dsimp only
        cases hin : r.contains e.1 with
        | true => rfl
        | false =>
          have hstart := hordered.firstAtLeast hrun
          have hbelow : r.high ≤ .key e.1 := by
            rcases KeyRange.contains_eq_false_iff.1 hin with hlow | hhigh
            · have hlow : e.1 < r.low := hlow
              grind
            · exact hhigh
          have hr' : ¬e.1.isBelow r.high = true := by
            simp only [Key.isBelow, decide_eq_true_eq]
            exact Std.not_lt.2 hbelow
          refine (ih hsplit' (hleave (by grind) hr') (Nat.lt_of_succ_lt_succ hn) s').trans ?_
          exact StoreM.map_apply ..

/-- Each round of a fetch downwards leaves a range behind. -/
theorem answerWithin_descend (hordered : Ordered σ) {rs : RangeSet} {past ahead : List KeyRange}
    (hsplit : rs.ranges.toList.reverse = past ++ ahead) {b : Bound} (hpast : ∀ r ∈ past, ¬r.low.isBelow b = true)
    {n : Nat} (hn : ahead.length < n) (s : σ) :
    answerWithin (descend rs) n b s = (some <$> lastIn b ahead) s := by
  induction ahead generalizing past b n s with
  | nil =>
    obtain ⟨n, rfl⟩ := Nat.exists_eq_succ_of_ne_zero (Nat.ne_of_gt hn)
    have hround : rs.before? b = none := by
      rw [RangeSet.before?_eq_find?, hsplit, List.append_nil]
      exact List.find?_eq_none.2 hpast
    rw [answerWithin, descend, hround]
    rfl
  | cons r ahead ih =>
    have hsplit' : rs.ranges.toList.reverse = (past ++ [r]) ++ ahead := by simp [hsplit]
    have hleave : ∀ {b' : Bound}, b' ≤ b → ¬r.low.isBelow b' = true → ∀ x ∈ past ++ [r], ¬x.low.isBelow b' = true := by
      intro b' hb hr x hx
      rcases List.mem_append.1 hx with hx | hx
      · have := hpast x hx
        simp only [Key.isBelow, decide_eq_true_eq] at this ⊢
        grind
      · exact List.mem_singleton.1 hx ▸ hr
    rw [List.length_cons] at hn
    cases hr : r.low.isBelow b with
    | false =>
      have hr' : ¬r.low.isBelow b = true := by simp [hr]
      rw [lastIn, if_neg hr', ih hsplit' (hleave (Std.le_refl b) hr') (by omega)]
    | true =>
      obtain ⟨n, rfl⟩ := Nat.exists_eq_succ_of_ne_zero (Nat.ne_of_gt (Nat.lt_of_le_of_lt (Nat.zero_le _) hn))
      have hround : rs.before? b = some r := by
        rw [RangeSet.before?_eq_find?, hsplit]
        exact List.find?_eq_some_iff_append.2 ⟨hr, past, ahead, rfl, by simpa using hpast⟩
      rw [answerWithin, StoreM.bind_apply, descend, hround, lastIn, if_pos hr, StoreM.map_apply]
      dsimp only
      rw [StoreM.bind_apply, StoreM.bind_apply]
      rcases hrun : KeyValueReader.lastBelow (b.min r.high) s with ⟨why | - | e, s'⟩
      · rfl
      · rfl
      · dsimp only
        cases hin : r.contains e.1 with
        | true => rfl
        | false =>
          have hstart := hordered.lastBelow hrun
          rw [Bound.min] at hstart
          have habove : Bound.key e.1 < .key r.low := by
            rcases KeyRange.contains_eq_false_iff.1 hin with hlow | hhigh
            · exact hlow
            · grind
          have hr' : ¬r.low.isBelow (.key e.1.successor) = true := by
            simp only [Key.isBelow, decide_eq_true_eq]
            exact Std.not_lt.2 (Key.successor_le_iff.2 habove)
          refine (ih hsplit' (hleave (Key.successor_le_iff.2 (by grind)) hr') (Nat.lt_of_succ_lt_succ hn) s').trans ?_
          exact StoreM.map_apply ..

/-- Run as a loop, a fetch ends within one round more than there are ranges. -/
theorem findWithin_eq (hordered : Ordered σ) (w : Scan) (s : σ) :
    w.findWithin (w.ranges.size + 1) s = (some <$> w.find) s := by
  have hsize : w.ranges.ranges.toList.length < w.ranges.size + 1 := Nat.lt_succ_self _
  rw [findWithin, find]
  split
  · exact answerWithin_descend hordered (List.nil_append _).symm (by simp) (by simpa using hsize) s
  · cases w.cursor with
    | key k => exact answerWithin_ascend hordered (List.nil_append _).symm (by simp) hsize s
    | top => rfl

end Scan

end Keyspace
