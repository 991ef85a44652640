import Keyspace.Proofs.Faithful
import Mathlib.Data.List.DropRight

/-!
Walks over stores that change between any two calls, and that are moved at any time. What a walk says from its start,
or from where it was last moved to, is told by the calls alone: each entry was the nearest one ahead when it was looked
for, and a walk that has said to be over says nothing else.
-/
namespace Keyspace

structure Route where
  ranges : RangeSet
  reverse : Bool
  start : Option Key

namespace Watch

open Scan (Faithful isAfter)

inductive Act where
  | next
  | peek
  | hasNext
  deriving DecidableEq

inductive Look (σ : Type) where
  | next (s : σ) (r : Except StoreError (Option Entry))
  | peek (s : σ) (r : Except StoreError (Option Entry))
  | hasNext (s : σ) (r : Except StoreError Bool)
  deriving DecidableEq

inductive Event (σ : Type) where
  | become (s : σ)
  | seek (target : Key)
  | act (a : Act)

inductive Moment (σ : Type) where
  | sought (target : Key)
  | looked (l : Look σ)
  deriving DecidableEq

variable {σ : Type}

namespace Look

def state : Look σ → σ
  | next s _ | peek s _ | hasNext s _ => s

def isNext : Look σ → Bool
  | next .. => true
  | peek .. | hasNext .. => false

/-- Whether a call answers as it does on a walk that finds `r`. -/
def Says : Look σ → Except StoreError (Option Entry) → Prop
  | next _ r', r | peek _ r', r => r' = r
  | hasNext _ b, r => b = r.map Option.isSome

/-- The walk is said to be over, or to have failed. -/
def Ends (l : Look σ) : Prop := l.Says (.ok none) ∨ ∃ why, l.Says (.error why)

def shown? : Look σ → Option Entry
  | next _ (.ok found) | peek _ (.ok found) => found
  | _ => none

/-- The entry that a call takes off the walk. -/
def taken? : Look σ → Option Entry
  | next _ (.ok found) => found
  | _ => none

end Look

/-- The entries that some calls have taken off the walk. -/
def taken (past : List (Look σ)) : List Entry := past.filterMap Look.taken?

/-- The calls since an entry was last asked for by `next`; the first of them has looked for it. -/
def pending (past : List (Look σ)) : List (Look σ) := past.rtakeWhile fun l => !l.isNext

/-- The call that has looked for the entry that `l` shows. -/
def lookup (past : List (Look σ)) (l : Look σ) : Look σ := (pending past).headD l

section

variable [KeyValueReader σ]

def perform (w : Scan) (s : σ) : Act → Look σ × Scan × σ
  | .next => (.next s (w.next s).1.2, (w.next s).1.1, (w.next s).2)
  | .peek => (.peek s (w.peek s).1.2, (w.peek s).1.1, (w.peek s).2)
  | .hasNext => (.hasNext s (w.hasNext s).1.2, (w.hasNext s).1.1, (w.hasNext s).2)

def run (w : Scan) (s : σ) : List (Event σ) → List (Moment σ)
  | [] => []
  | .become s' :: es => run w s' es
  | .seek target :: es => .sought target :: run (w.seek target) s es
  | .act a :: es => .looked (perform w s a).1 :: run (perform w s a).2.1 (perform w s a).2.2 es

end

/-- Some calls are the first ones made since a walk from `first` on began, or since it was moved. -/
inductive Leg (first : Option Key) (seen : List (Moment σ)) : Option Key → List (Look σ) → Prop where
  | opening {looks : List (Look σ)} (h : looks.map .looked <+: seen) : Leg first seen first looks
  | moved {earlier : List (Moment σ)} {target : Key} {looks : List (Look σ)}
    (h : earlier ++ .sought target :: looks.map .looked <+: seen) : Leg first seen (some target) looks

end Watch

open Watch

namespace Route

open Scan (isAfter)

variable {σ : Type}

def scan (c : Route) : Scan := .create c.ranges c.start c.reverse

/-- The keys ahead after some calls: those beyond the last entry that was taken, and before any was taken those at or
beyond the start. -/
def Awaits (c : Route) (past : List (Look σ)) (x : Key) : Prop :=
  match (taken past).getLast?, c.start with
  | some e, _ => isAfter c.reverse e.1 x = true
  | none, some k => x = k ∨ isAfter c.reverse k x = true
  | none, none => True

structure Nearest (c : Route) (past : List (Look σ)) (m : Store) (e : Entry) : Prop where
  stored : m.get? e.1 = some e.2
  inRanges : c.ranges.contains e.1 = true
  awaited : c.Awaits past e.1
  first : ∀ x, m.get? x ≠ none → c.ranges.contains x = true → c.Awaits past x → x = e.1 ∨ isAfter c.reverse e.1 x = true

structure Sound (c : Route) (contents : σ → Store) (works : σ → Prop) (looks : List (Look σ)) : Prop where
  /-- Entries are taken in the direction of the walk. -/
  monotone : (taken looks).Pairwise fun a b => isAfter c.reverse a.1 b.1 = true
  inRanges : ∀ e ∈ taken looks, c.ranges.contains e.1 = true
  /-- An entry that is shown was the nearest one ahead when it was looked for. -/
  nearest : ∀ past l rest e, looks = past ++ l :: rest → l.shown? = some e →
    c.Nearest past (contents (lookup past l).state) e
  /-- What is said ahead of the next entry is true of it, unless it is that the store fails. -/
  foretold : ∀ past l between s r rest, looks = past ++ l :: between ++ .next s r :: rest →
    (∀ l' ∈ l :: between, l'.isNext = false) → l.Says r ∨ ∃ why, l.Says (.error why)
  /-- A walk that was said to be over, or that has failed, stays over. -/
  finished : ∀ past l rest, looks = past ++ l :: rest → l.Ends → ∀ l' ∈ rest, l'.Says (.ok none)
  /-- A walk is over only where nothing was ahead. -/
  complete : ∀ past l rest, looks = past ++ l :: rest → (∀ l' ∈ past, ¬l'.Ends) → l.Says (.ok none) →
    ∀ x, (contents l.state).get? x ≠ none → c.ranges.contains x = true → ¬c.Awaits past x
  /-- A walk fails only where the store does. -/
  fails : ∀ l ∈ looks, ∀ why, l.Says (.error why) → ¬works l.state

end Route

namespace Watch

open Scan (Faithful isAfter after ended)

variable {σ : Type}

theorem taken_append (past : List (Look σ)) (l : Look σ) : taken (past ++ [l]) = taken past ++ l.taken?.toList := by
  rw [taken, taken, List.filterMap_append]
  cases h : l.taken? <;> simp [h]

theorem pending_append (past : List (Look σ)) (l : Look σ) :
    pending (past ++ [l]) = if l.isNext then [] else pending past ++ [l] := by
  rw [pending, pending, List.rtakeWhile_concat]
  cases l.isNext <;> rfl

theorem mem_pending (past : List (Look σ)) {later : List (Look σ)} {l : Look σ}
    (hlater : ∀ l' ∈ later, l'.isNext = false) (hl : l ∈ later) : l ∈ pending (past ++ later) := by
  induction later using List.reverseRecOn with
  | nil => exact absurd hl List.not_mem_nil
  | append_singleton later l' ih =>
    have hl' : l'.isNext = false := hlater l' (by simp)
    rw [← List.append_assoc, pending_append, hl', if_neg Bool.false_ne_true, List.mem_append]
    exact (List.mem_append.1 hl).imp_left (ih fun x hx => hlater x (List.mem_append_left _ hx))

/-! ## What one call answers -/

namespace Act

/-- The call as it is seen where the walk finds `r`. -/
def look (a : Act) (s : σ) (r : Except StoreError (Option Entry)) : Look σ :=
  match a with
  | next => .next s r
  | peek => .peek s r
  | hasNext => .hasNext s (r.map Option.isSome)

/-- The walk that the call leaves of one that has fetched ahead. -/
def leave (a : Act) (w : Scan) : Scan :=
  match a with
  | next => { w with fetched := none }
  | peek | hasNext => w

variable {a : Act} {s : σ} {r : Except StoreError (Option Entry)} {e : Entry}

theorem says_look : (a.look s r).Says r := by cases a <;> rfl

theorem state_look : (a.look s r).state = s := by cases a <;> rfl

theorem isNext_look : (a.look s r).isNext = decide (a = .next) := by cases a <;> rfl

theorem not_ends_look : ¬(a.look s (.ok (some e))).Ends := by
  cases a <;> simp [look, Look.Ends, Look.Says, Except.map]

theorem taken?_look : (a.look s r).taken? = if a = .next then r.toOption.join else none := by
  cases a <;> rcases r with why | found <;> rfl

end Act

/-- A call on a walk is told by what the walk fetches. -/
theorem perform_apply [KeyValueReader σ] {w w' : Scan} {s s' : σ} {r : Except StoreError (Option Entry)}
    (h : w.fill s = ((w', r), s')) (a : Act) : perform w s a = (a.look s r, a.leave w', s') := by
  cases a with
  | next =>
    have hnext : w.next s = (({ w' with fetched := none }, r), s') := StoreM.stateM_bind h
    rw [perform, hnext]
    rfl
  | peek =>
    have hpeek : w.peek s = ((w', r), s') := h
    rw [perform, hpeek]
    rfl
  | hasNext =>
    have hhas : w.hasNext s = ((w', r.map Option.isSome), s') := StoreM.stateM_bind h
    rw [perform, hhas]
    rfl

/-- How the answer of a call comes about after those before it. -/
inductive Fits (c : Route) (contents : σ → Store) (works : σ → Prop) (past : List (Look σ)) (l : Look σ) : Prop where
  | found (e : Entry) (answer : l.Says (.ok (some e))) (nearest : c.Nearest past (contents (lookup past l).state) e)
    (pending : ∀ l' ∈ pending past, l'.Says (.ok (some e))) (goes : ∀ l' ∈ past, ¬l'.Ends)
  | exhausted (answer : l.Says (.ok none)) (nothing : ∀ x, (contents l.state).get? x ≠ none →
      c.ranges.contains x = true → ¬c.Awaits past x) (fresh : pending past = []) (goes : ∀ l' ∈ past, ¬l'.Ends)
  | failed (why : StoreError) (answer : l.Says (.error why)) (broken : ¬works l.state) (fresh : pending past = [])
    (goes : ∀ l' ∈ past, ¬l'.Ends)
  | finished (answer : l.Says (.ok none)) (ended : ∃ l' ∈ past, l'.Ends) (pending : ∀ l' ∈ pending past, l'.Ends)

variable {c : Route} {contents : σ → Store} {works : σ → Prop} {past : List (Look σ)} {w : Scan} {s : σ} {e : Entry}
  {l : Look σ}

/-! ## What follows for the whole leg -/

theorem of_shown {r : Except StoreError (Option Entry)} (h : l.shown? = some e) (hl : l.Says r) : r = .ok (some e) := by
  cases l with
  | next s r' =>
    obtain rfl : r' = r := hl
    cases r' <;> simp_all [Look.shown?]
  | peek s r' =>
    obtain rfl : r' = r := hl
    cases r' <;> simp_all [Look.shown?]
  | hasNext s b => cases h

theorem shown_of_taken (h : l.taken? = some e) : l.shown? = some e := by
  cases l with
  | next s r => cases r <;> exact h
  | _ => cases h

theorem Fits.nearest (h : Fits c contents works past l) (hshown : l.shown? = some e) :
    c.Nearest past (contents (lookup past l).state) e := by
  cases h with
  | found e' answer nearest =>
    obtain rfl : e' = e := by simpa using of_shown hshown answer
    exact nearest
  | exhausted answer => exact nomatch of_shown hshown answer
  | failed why answer => exact nomatch of_shown hshown answer
  | finished answer => exact nomatch of_shown hshown answer

theorem not_ends_of_says_some (h : l.Says (.ok (some e))) : ¬l.Ends := by
  cases l <;> simp_all [Look.Ends, Look.Says, Except.map]

theorem not_says_none_of_says_error {why : StoreError} (h : l.Says (.error why)) : ¬l.Says (.ok none) := by
  cases l <;> simp_all [Look.Says, Except.map]

theorem isAfter_trans {reverse : Bool} {x y z : Key} (h : isAfter reverse x y = true)
    (h' : isAfter reverse y z = true) : isAfter reverse x z = true := by
  revert h h'
  cases reverse <;> simp only [isAfter, decide_eq_true_eq, Bool.false_eq_true, if_true, if_false] <;> grind

/-- Each entry that is taken comes after all before it, since it comes after the last of them. -/
theorem pairwise_taken {looks : List (Look σ)}
    (h : ∀ before l rest, looks = before ++ l :: rest → Fits c contents works before l) :
    (taken looks).Pairwise fun a b => isAfter c.reverse a.1 b.1 = true := by
  induction looks using List.reverseRecOn with
  | nil => exact .nil
  | append_singleton looks l ih =>
    have hlooks := ih fun before l' rest hsplit => h before l' (rest ++ [l]) (by simp [hsplit])
    rw [taken_append]
    cases htaken : l.taken? with
    | none => rwa [Option.toList_none, List.append_nil]
    | some e =>
      have hawaited := ((h looks l [] rfl).nearest (shown_of_taken htaken)).awaited
      refine List.pairwise_append.2 ⟨hlooks, List.pairwise_singleton .., fun a ha e' he' => ?_⟩
      obtain rfl := List.mem_singleton.1 he'
      rcases List.eq_nil_or_concat (taken looks) with hnil | ⟨before, b, hlast⟩
      · rw [hnil] at ha
        exact absurd ha List.not_mem_nil
      · rw [List.concat_eq_append] at hlast
        rw [Route.Awaits, hlast, List.getLast?_append, List.getLast?_singleton] at hawaited
        rw [hlast, List.pairwise_append] at hlooks
        rw [hlast] at ha
        rcases List.mem_append.1 ha with ha | ha
        · exact isAfter_trans (hlooks.2.2 a ha b (List.mem_singleton_self b)) hawaited
        · exact List.mem_singleton.1 ha ▸ hawaited

/-- Calls that fit to those before them are sound. -/
theorem sound_of_fits {looks : List (Look σ)}
    (h : ∀ before l rest, looks = before ++ l :: rest → Fits c contents works before l) :
    c.Sound contents works looks := by
  have hmem : ∀ l ∈ looks, ∃ before, Fits c contents works before l := fun l hl => by
    obtain ⟨before, rest, hsplit⟩ := List.append_of_mem hl
    exact ⟨before, h before l rest hsplit⟩
  refine ⟨pairwise_taken h, fun e he => ?_, fun past l rest e hsplit hshown => (h past l rest hsplit).nearest hshown,
    ?_, ?_, ?_, ?_⟩
  · obtain ⟨l, hl, htaken⟩ := List.mem_filterMap.1 he
    obtain ⟨before, hfits⟩ := hmem l hl
    exact (hfits.nearest (shown_of_taken htaken)).inRanges
  · intro past l between s r rest hsplit hbetween
    have hpending := mem_pending past hbetween List.mem_cons_self
    cases h (past ++ l :: between) (.next s r) rest hsplit with
    | found e answer _ pending =>
      obtain rfl : r = .ok (some e) := answer
      exact .inl (pending l hpending)
    | exhausted _ _ fresh =>
      rw [fresh] at hpending
      exact absurd hpending List.not_mem_nil
    | failed _ _ _ fresh =>
      rw [fresh] at hpending
      exact absurd hpending List.not_mem_nil
    | finished answer _ pending =>
      obtain rfl : r = .ok none := answer
      exact pending l hpending
  · intro past l rest hsplit hends l' hl'
    obtain ⟨mid, rest', rfl⟩ := List.append_of_mem hl'
    have hbefore : l ∈ past ++ l :: mid := by simp
    cases h (past ++ l :: mid) l' rest' (by simp [hsplit]) with
    | finished answer => exact answer
    | found _ _ _ _ goes => exact absurd hends (goes l hbefore)
    | exhausted _ _ _ goes => exact absurd hends (goes l hbefore)
    | failed _ _ _ _ goes => exact absurd hends (goes l hbefore)
  · intro past l rest hsplit hgoes hnone
    cases h past l rest hsplit with
    | exhausted _ nothing => exact nothing
    | found e answer => exact absurd (.inl hnone) (not_ends_of_says_some answer)
    | failed why answer => exact absurd hnone (not_says_none_of_says_error answer)
    | finished _ ended =>
      obtain ⟨l', hl', hends⟩ := ended
      exact absurd hends (hgoes l' hl')
  · intro l hl why hfails
    obtain ⟨before, hfits⟩ := hmem l hl
    cases hfits with
    | failed _ _ broken => exact broken
    | found e answer => exact absurd (.inr ⟨why, hfails⟩) (not_ends_of_says_some answer)
    | exhausted answer => exact absurd answer (not_says_none_of_says_error hfails)
    | finished answer => exact absurd answer (not_says_none_of_says_error hfails)

/-! ## Where the walk is -/

/-- Where a walk is after some calls: it has looked for no entry since the last one was taken, or it holds the entry
that was looked for, or it is over. -/
inductive Stands (c : Route) (contents : σ → Store) (past : List (Look σ)) (w : Scan) : Prop where
  | facing (fetched : w.fetched = none) (faces : ∀ x, w.faces x = true ↔ c.Awaits past x) (fresh : pending past = [])
    (goes : ∀ l ∈ past, ¬l.Ends)
  | holding (e : Entry) (first : Look σ) (fetched : w.fetched = some e) (cursor : w.cursor = after w.reverse e.1)
    (head : (pending past).head? = some first) (nearest : c.Nearest past (contents first.state) e)
    (pending : ∀ l ∈ pending past, l.Says (.ok (some e))) (goes : ∀ l ∈ past, ¬l.Ends)
  | finished (fetched : w.fetched = none) (cursor : w.cursor = ended w.reverse) (ended : ∃ l ∈ past, l.Ends)
    (pending : ∀ l ∈ pending past, l.Ends)

structure Follows (c : Route) (contents : σ → Store) (past : List (Look σ)) (w : Scan) : Prop where
  ranges : w.ranges = c.ranges
  reverse : w.reverse = c.reverse
  stands : Stands c contents past w

theorem follows_scan (c : Route) (contents : σ → Store) : Follows c contents [] c.scan := by
  refine ⟨Scan.ranges_create .., Scan.reverse_create .., .facing (Scan.fetched_create ..) (fun x => ?_) rfl (by simp)⟩
  rw [Route.scan, Scan.faces_create, Route.Awaits]
  cases c.start with
  | none => simp [taken]
  | some k =>
    cases c.reverse <;> simp only [taken, isAfter, Option.all_some, List.filterMap_nil, List.getLast?_nil] <;> grind

theorem awaits_taken (h : l.taken? = some e) (x : Key) :
    c.Awaits (past ++ [l]) x ↔ isAfter c.reverse e.1 x = true := by
  rw [Route.Awaits, taken_append, h, Option.toList_some, List.getLast?_append, List.getLast?_singleton]
  rfl

theorem awaits_of_not_taken (h : l.taken? = none) (x : Key) : c.Awaits (past ++ [l]) x ↔ c.Awaits past x := by
  rw [Route.Awaits, taken_append, h, Option.toList_none, List.append_nil]
  rfl

theorem mem_remaining_iff {m : Store} {x : Entry} (hranges : w.ranges = c.ranges)
    (hfaces : ∀ k, w.faces k = true ↔ c.Awaits past k) :
    x ∈ w.remaining m ↔ m.get? x.1 = some x.2 ∧ c.ranges.contains x.1 = true ∧ c.Awaits past x.1 := by
  have hstored : x ∈ Scan.inOrder w.reverse m ↔ m.get? x.1 = some x.2 := by
    rw [← SortedMap.mem_toList_iff, Scan.inOrder]
    cases w.reverse <;> simp
  rw [Scan.remaining, List.mem_filter, hstored, Bool.and_eq_true, hranges, hfaces]

/-- What comes first of the remaining entries is the nearest one ahead. -/
theorem nearest_of_head? {m : Store} (hranges : w.ranges = c.ranges) (hreverse : w.reverse = c.reverse)
    (hfaces : ∀ x, w.faces x = true ↔ c.Awaits past x) (h : (w.remaining m).head? = some e) :
    c.Nearest past m e := by
  obtain ⟨es, hes⟩ := List.head?_eq_some_iff.1 h
  obtain ⟨hstored, hin, hawaited⟩ := (mem_remaining_iff hranges hfaces).1 (hes ▸ List.mem_cons_self : e ∈ w.remaining m)
  refine ⟨hstored, hin, hawaited, fun x hx hxin hxawaited => ?_⟩
  obtain ⟨v, hv⟩ := Option.ne_none_iff_exists'.1 hx
  have hmem : (x, v) ∈ w.remaining m := (mem_remaining_iff hranges hfaces).2 ⟨hv, hxin, hxawaited⟩
  have hsorted := (Scan.pairwise_inOrder w.reverse m).filter fun e => w.ranges.contains e.1 && w.faces e.1
  rw [← Scan.remaining, hes, hreverse, List.pairwise_cons] at hsorted
  rw [hes] at hmem
  rcases List.mem_cons.1 hmem with hfirst | hlater
  · exact .inl (congrArg Prod.fst hfirst)
  · exact .inr (hsorted.1 (x, v) hlater)

theorem nothing_of_head? {m : Store} (hranges : w.ranges = c.ranges)
    (hfaces : ∀ x, w.faces x = true ↔ c.Awaits past x) (h : (w.remaining m).head? = none) (x : Key)
    (hx : m.get? x ≠ none) (hin : c.ranges.contains x = true) : ¬c.Awaits past x := by
  intro hawaited
  obtain ⟨v, hv⟩ := Option.ne_none_iff_exists'.1 hx
  have hmem : (x, v) ∈ w.remaining m := (mem_remaining_iff hranges hfaces).2 ⟨hv, hin, hawaited⟩
  rw [List.head?_eq_none_iff.1 h] at hmem
  exact absurd hmem List.not_mem_nil

/-! ## One call -/

theorem goes_append (h : ∀ l ∈ past, ¬l.Ends) (hl : ¬l.Ends) : ∀ l' ∈ past ++ [l], ¬l'.Ends := by
  simpa [or_imp, forall_and] using ⟨h, hl⟩

/-- An entry that is found is taken off the walk or stays ahead. -/
theorem Stands.found {a : Act} {w' : Scan} (first : Look σ) (hfetched : w'.fetched = some e)
    (hcursor : w'.cursor = after w'.reverse e.1) (hreverse : w'.reverse = c.reverse)
    (hfirst : (pending past ++ [a.look s (.ok (some e))]).head? = some first)
    (hnearest : c.Nearest past (contents first.state) e) (hpending : ∀ l ∈ pending past, l.Says (.ok (some e)))
    (hgoes : ∀ l ∈ past, ¬l.Ends) : Stands c contents (past ++ [a.look s (.ok (some e))]) (a.leave w') := by
  have hgoes' := goes_append hgoes (Act.not_ends_look (a := a) (s := s) (e := e))
  by_cases ha : a = .next
  · subst ha
    refine .facing rfl (fun x => ?_) (by rw [pending_append]; rfl) hgoes'
    have honward : Act.next.leave w' = w'.onward (some e) := by
      rw [Act.leave, Scan.onward, ← hcursor]
    rw [awaits_taken (l := Act.next.look s (.ok (some e))) rfl, honward, Scan.faces_after, hreverse]
  · have hleave : a.leave w' = w' := by cases a <;> first | rfl | exact absurd rfl ha
    have htaken : (a.look s (.ok (some e))).taken? = none := by rw [Act.taken?_look, if_neg ha]
    have hpending' : pending (past ++ [a.look s (.ok (some e))]) = pending past ++ [a.look s (.ok (some e))] := by
      rw [pending_append, Act.isNext_look, decide_eq_false ha, if_neg Bool.false_ne_true]
    rw [hleave]
    refine .holding e first hfetched hcursor (by rw [hpending', hfirst]) ?_ ?_ hgoes'
    · exact ⟨hnearest.stored, hnearest.inRanges, (awaits_of_not_taken htaken e.1).2 hnearest.awaited,
        fun x hx hin hawaited => hnearest.first x hx hin ((awaits_of_not_taken htaken x).1 hawaited)⟩
    · rw [hpending']
      exact fun l hl => (List.mem_append.1 hl).elim (hpending l) fun h => List.mem_singleton.1 h ▸ Act.says_look

/-- A walk that is said to be over is. -/
theorem Stands.ended {a : Act} {r : Except StoreError (Option Entry)} {w' : Scan} (hw : w' = w.onward none)
    (hends : (a.look s r).Ends) (hpending : ∀ l ∈ pending past, l.Ends) :
    Stands c contents (past ++ [a.look s r]) (a.leave w') := by
  have hleave : a.leave w' = w' := by
    subst hw
    cases a <;> rfl
  rw [hleave]
  subst hw
  refine .finished rfl rfl ⟨_, by simp, hends⟩ ?_
  rw [pending_append]
  split
  · simp
  · exact fun l hl => (List.mem_append.1 hl).elim (hpending l) fun h => List.mem_singleton.1 h ▸ hends

theorem ranges_leave (a : Act) (w : Scan) : (a.leave w).ranges = w.ranges := by cases a <;> rfl

theorem reverse_leave (a : Act) (w : Scan) : (a.leave w).reverse = w.reverse := by cases a <;> rfl

variable [KeyValueReader σ]

/-- A call answers as the calls before it ask for, and takes the walk on. -/
theorem Follows.perform (hfaithful : Faithful contents works) (h : Follows c contents past w) (s : σ) (a : Act) :
    Fits c contents works past (perform w s a).1 ∧
      Follows c contents (past ++ [(perform w s a).1]) (perform w s a).2.1 := by
  obtain ⟨hranges, hreverse, hstands⟩ := h
  cases hstands with
  | facing hfetched hfaces hfresh hgoes =>
    have hlookup : ∀ l : Look σ, lookup past l = l := fun l => by rw [lookup, hfresh]; rfl
    rcases hfaithful.fill_cases hfetched s with ⟨s', hfill⟩ | ⟨hbroken, why, s', hfill⟩
    · rw [perform_apply hfill]
      cases hfound : (w.remaining (contents s)).head? with
      | none =>
        have hends : (a.look s (.ok none)).Ends := .inl Act.says_look
        refine ⟨.exhausted Act.says_look ?_ hfresh hgoes, ?_, ?_, .ended rfl hends (by simp [hfresh])⟩
        · rw [Act.state_look]
          exact nothing_of_head? hranges hfaces hfound
        · exact (ranges_leave ..).trans hranges
        · exact (reverse_leave ..).trans hreverse
      | some e =>
        have hnearest := nearest_of_head? hranges hreverse hfaces hfound
        refine ⟨.found e Act.says_look ?_ (by simp [hfresh]) hgoes, (ranges_leave ..).trans hranges,
          (reverse_leave ..).trans hreverse, .found (a.look s (.ok (some e))) rfl rfl hreverse ?_ ?_ ?_ hgoes⟩
        · rw [hlookup, Act.state_look]
          exact hnearest
        · rw [hfresh]
          rfl
        · rw [Act.state_look]
          exact hnearest
        · simp [hfresh]
    · rw [perform_apply hfill]
      have hends : (a.look s (.error why)).Ends := .inr ⟨why, Act.says_look⟩
      refine ⟨.failed why Act.says_look ?_ hfresh hgoes, (ranges_leave ..).trans hranges,
        (reverse_leave ..).trans hreverse, .ended rfl hends (by simp [hfresh])⟩
      rw [Act.state_look]
      exact hbroken
  | holding e first hfetched hcursor hhead hnearest hpending hgoes =>
    rw [perform_apply (Scan.fill_of_fetched hfetched s)]
    have hlookup : ∀ l : Look σ, lookup past l = first := fun l => by
      rw [lookup, List.headD_eq_head?_getD, hhead]
      rfl
    refine ⟨.found e Act.says_look (by rw [hlookup]; exact hnearest) hpending hgoes, (ranges_leave ..).trans hranges,
      (reverse_leave ..).trans hreverse, .found first hfetched hcursor hreverse ?_ hnearest hpending hgoes⟩
    rw [List.head?_append, hhead]
    rfl
  | finished hfetched hcursor hended hpending =>
    have hover : w = w.onward none := by
      rw [Scan.onward, ← hfetched, ← hcursor]
    have hfill := Scan.fill_ended w s
    rw [← hover] at hfill
    rw [perform_apply hfill]
    have hends : (a.look s (.ok none)).Ends := .inl Act.says_look
    exact ⟨.finished Act.says_look hended hpending, (ranges_leave ..).trans hranges, (reverse_leave ..).trans hreverse,
      .ended hover hends hpending⟩

/-! ## All calls of a leg -/

/-- Each call of a leg answers as the calls before it ask for. -/
theorem Follows.run (hfaithful : Faithful contents works) {es : List (Event σ)} (h : Follows c contents past w)
    {looks : List (Look σ)} (hlooks : looks.map .looked <+: run w s es) {before rest : List (Look σ)}
    (hsplit : looks = before ++ l :: rest) : Fits c contents works (past ++ before) l := by
  subst hsplit
  induction es generalizing past w s before with
  | nil =>
    rw [Watch.run, List.prefix_nil] at hlooks
    simp at hlooks
  | cons event es ih =>
    cases event with
    | become s' => exact ih h hlooks
    | seek target =>
      rw [Watch.run] at hlooks
      cases before <;> exact absurd (List.cons_prefix_cons.1 hlooks).1 (by simp)
    | act a =>
      obtain ⟨hfits, hfollows⟩ := h.perform hfaithful s a
      rw [Watch.run] at hlooks
      cases before with
      | nil =>
        obtain ⟨hl, -⟩ := List.cons_prefix_cons.1 hlooks
        rw [List.append_nil, Moment.looked.inj hl]
        exact hfits
      | cons l' before =>
        obtain ⟨hl, hrest⟩ := List.cons_prefix_cons.1 hlooks
        rw [List.append_cons, Moment.looked.inj hl]
        exact ih hfollows hrest

/-- No call changes where a walk goes. -/
theorem ranges_perform (w : Scan) (s : σ) (a : Act) :
    (perform w s a).2.1.ranges = w.ranges ∧ (perform w s a).2.1.reverse = w.reverse := by
  have hfill : ∃ w' r s', w.fill s = ((w', r), s') ∧ w'.ranges = w.ranges ∧ w'.reverse = w.reverse := by
    cases hw : w.fetched with
    | some e => exact ⟨w, _, s, Scan.fill_of_fetched hw s, rfl, rfl⟩
    | none =>
      rw [Scan.fill, hw]
      rcases hrun : w.find s with ⟨why | none | e, s'⟩
      all_goals exact ⟨_, _, s', StoreM.stateM_bind hrun, rfl, rfl⟩
  obtain ⟨w', r, s', hrun, hranges, hreverse⟩ := hfill
  rw [perform_apply hrun]
  exact ⟨(ranges_leave a w').trans hranges, (reverse_leave a w').trans hreverse⟩

/-- Where a walk has been moved, it is as a new one from there. -/
theorem exists_run_of_moved {es : List (Event σ)} {earlier : List (Moment σ)} {target : Key} {later : List (Moment σ)}
    (h : earlier ++ .sought target :: later <+: run w s es) :
    ∃ s' es', later <+: run (Scan.create w.ranges (some target) w.reverse) s' es' := by
  induction es generalizing w s earlier with
  | nil =>
    rw [Watch.run, List.prefix_nil] at h
    simp at h
  | cons event es ih =>
    cases event with
    | become s' => exact ih h
    | seek other =>
      rw [Watch.run] at h
      cases earlier with
      | nil =>
        obtain ⟨htarget, hlater⟩ := List.cons_prefix_cons.1 h
        rw [Moment.sought.inj htarget]
        exact ⟨s, es, hlater⟩
      | cons moment earlier => exact ih (w := w.seek other) (List.cons_prefix_cons.1 h).2
    | act a =>
      rw [Watch.run] at h
      cases earlier with
      | nil => exact absurd (List.cons_prefix_cons.1 h).1 (by simp)
      | cons moment earlier =>
        obtain ⟨hranges, hreverse⟩ := ranges_perform w s a
        rw [← hranges, ← hreverse]
        exact ih (List.cons_prefix_cons.1 h).2

theorem Leg.fits (hfaithful : Faithful contents works) {es : List (Event σ)} {start : Option Key}
    {looks : List (Look σ)} (hleg : Leg c.start (Watch.run c.scan s es) start looks) {before rest : List (Look σ)}
    (hsplit : looks = before ++ l :: rest) : Fits { c with start } contents works before l := by
  cases hleg with
  | opening h => exact (follows_scan c contents).run hfaithful h hsplit
  | @moved earlier target looks h =>
    obtain ⟨s', es', h⟩ := exists_run_of_moved h
    rw [Route.scan, Scan.ranges_create, Scan.reverse_create] at h
    exact (follows_scan { c with start := some target } contents).run hfaithful h hsplit

/-- Walks stay sound while their store changes. Whatever the store becomes between the calls on a walk, and wherever the
walk is moved, the calls from its start or from a move on are sound: entries are taken in its direction and lie in its
ranges, each was the nearest one ahead when it was looked for, what is said ahead of an entry holds of it, and a walk
that is over or has failed stays over until it is moved. That is so over every store whose searches give the nearest
entry of what it contains or fail, as they do over plain stores, transactions, snapshots and atomic stores, and a fetch
then ends within one round more than there are ranges. -/
theorem run_sound :
    (∀ (σ : Type) [KeyValueReader σ] (contents : σ → Store) (works : σ → Prop), Faithful contents works →
      (∀ (c : Route) (s : σ) (es : List (Event σ)) (start : Option Key) (looks : List (Look σ)),
        Leg c.start (run c.scan s es) start looks → Route.Sound { c with start } contents works looks) ∧
      ∀ (w : Scan) (s : σ), w.findWithin (w.ranges.size + 1) s = (some <$> w.find) s) ∧
    Faithful (id : Store → Store) (fun _ => True) ∧
    Faithful (fun t : Transaction => t.view.contents) (fun t => t.expired? = none) ∧
    Faithful (fun x : Snapshot Transaction => x.transaction.view.contents) (fun x => x.transaction.expired? = none) ∧
    Faithful (fun s : AtomicStore Database => s.db.data) fun s => s.started = true ∧ s.db.started = true := by
  refine ⟨fun σ _ contents works hfaithful => ⟨fun c s es start looks hleg => ?_, ?_⟩, Store.faithful,
    Transaction.faithful, Snapshot.faithful Transaction.faithful, AtomicStore.faithful⟩
  · exact sound_of_fits fun before l rest hsplit => hleg.fits hfaithful hsplit
  · exact Scan.findWithin_eq hfaithful.ordered

/-- An entry is looked at, removed and then taken; the next one is put meanwhile; the store is stopped while the end is
looked for, and started again; the walk then goes on when it is moved. -/
theorem run_sound_interrupted :
    let store (started : Bool) (keys : List Key) : AtomicStore Database :=
      ⟨⟨started, 7, keys.foldl (·.insert · []) .empty, [], 0, 5⟩, {}, true, 0⟩
    let c : Route := ⟨(RangeSet.single ⟨[1], .key [4], by decide⟩).add ⟨[6], .top, by decide⟩, false, none⟩
    let s := store true [[0], [1], [5], [6]]
    let s' := store true [[3], [5], [8]]
    let stopped := store false [[8]]
    let opening : List (Look (AtomicStore Database)) :=
      [.peek s (.ok (some ([1], []))), .next s' (.ok (some ([1], []))), .hasNext s' (.ok true),
        .next s' (.ok (some ([3], []))), .next stopped (.error (.lifecycle .databaseStopped)), .next s (.ok none)]
    run c.scan s [.act .peek, .become s', .act .next, .act .hasNext, .act .next, .become stopped, .act .next,
      .become s, .act .next, .seek [2], .act .next] =
        opening.map .looked ++ [.sought [2], .looked (.next s (.ok (some ([6], []))))] ∧
      c.Sound (·.db.data) (fun s => s.started = true ∧ s.db.started = true) opening := by
  intro store c s s' stopped opening
  have hseen : run c.scan s [.act .peek, .become s', .act .next, .act .hasNext, .act .next, .become stopped, .act .next,
      .become s, .act .next, .seek [2], .act .next] =
        opening.map .looked ++ [.sought [2], .looked (.next s (.ok (some ([6], []))))] := by
    decide +kernel
  refine ⟨hseen, ?_⟩
  obtain ⟨hsound, -⟩ := run_sound.1 _ _ _ AtomicStore.faithful
  exact hsound c s _ none opening (.opening (hseen ▸ List.prefix_append ..))

end Watch

end Keyspace
