import Keyspace.Key

/-!
Half-open intervals of keys. A range starts at a key, which belongs to it unless the range is empty,
and ends below a bound that is never less than the start.
-/
namespace Keyspace

/-- The keys from `low` up to, but not including, `high`. -/
@[ext] structure KeyRange where
  low : Key
  high : Bound
  low_le_high : Bound.key low ≤ high
  deriving DecidableEq

namespace KeyRange

def full : KeyRange := ⟨[], .top, by simp⟩

instance : Inhabited KeyRange := ⟨full⟩

/-- The range between two bounds, if they are in order. -/
def between? (low : Key) (high : Bound) : Option KeyRange :=
  if h : Bound.key low ≤ high then some ⟨low, high, h⟩ else none

theorem lt_successor (k : Key) : k < k.successor := by
  induction k with
  | nil => exact List.Lex.nil
  | cons b k ih => exact List.Lex.cons ih

def single (k : Key) : KeyRange :=
  ⟨k, .key k.successor, Std.le_of_lt (lt_successor k)⟩

theorem lt_of_append {p q r : Key} (h : p < q) (hlen : q.length ≤ p.length) : p ++ r < q := by
  induction p generalizing q with
  | nil => cases q with
    | nil => exact absurd h (List.lt_irrefl [])
    | cons b q => simp at hlen
  | cons a p ih => cases q with
    | nil => exact absurd h (List.not_lt_nil _)
    | cons b q =>
      rw [List.cons_lt_cons_iff] at h
      rw [List.cons_append, List.cons_lt_cons_iff]
      simp only [List.length_cons, Nat.add_le_add_iff_right] at hlen
      exact h.imp id fun ⟨hab, hpq⟩ => ⟨hab, ih hpq hlen⟩

theorem append_lt_append_left {p q : Key} (r : Key) (h : p < q) : r ++ p < r ++ q := by
  induction r with
  | nil => exact h
  | cons a r ih => exact List.Lex.cons ih

theorem le_afterPrefix (p : Key) : Bound.key p ≤ p.afterPrefix := by
  unfold Key.afterPrefix
  split
  · simp
  · next b rest h =>
    have hb : b ≠ 255 := by
      intro hb
      have := List.head?_dropWhile_not (· = 255) p.reverse
      simp [h, hb] at this
    have hsplit : p = rest.reverse ++ ([b] ++ (p.reverse.takeWhile (· = 255)).reverse) := by
      have := congrArg List.reverse (List.takeWhile_append_dropWhile (p := (· = 255)) (l := p.reverse))
      simpa [h] using this.symm
    have hlt : b < b + 1 := by
      have := b.toNat_lt
      have : b.toNat ≠ 255 := fun h' => hb (UInt8.toNat_inj.1 h')
      rw [UInt8.lt_iff_toNat_lt, UInt8.toNat_add]
      simp
      omega
    rw [Bound.key_le_key]
    refine Std.le_of_lt ?_
    rw [hsplit]
    refine append_lt_append_left _ (lt_of_append (List.cons_lt_cons_iff.2 (.inl ?_)) ?_)
    · simpa [← hsplit] using hlt
    · simp

def startingWith (p : Key) : KeyRange := ⟨p, p.afterPrefix, le_afterPrefix p⟩

def isEmpty (r : KeyRange) : Bool := r.high = .key r.low

def isFull (r : KeyRange) : Bool := r.low = [] && r.high = .top

def contains (r : KeyRange) (k : Key) : Bool := decide (r.low ≤ k) && k.isBelow r.high

/-- Whether the bounds of `s` lie within those of `r`. -/
def containsRange (r s : KeyRange) : Bool := decide (r.low ≤ s.low) && decide (s.high ≤ r.high)

def overlaps (r s : KeyRange) : Bool :=
  !r.isEmpty && !s.isEmpty && r.low.isBelow s.high && s.low.isBelow r.high

/-- Whether two ranges overlap or abut, so that together they form one range. -/
def touches (r s : KeyRange) : Bool :=
  decide (Bound.key s.low ≤ r.high) && decide (Bound.key r.low ≤ s.high)

/-- Where a range lies as seen from a key: before it, around it or after it. -/
def compareToKey (r : KeyRange) (k : Key) : Ordering :=
  if k < r.low then .gt else if k.isBelow r.high then .eq else .lt

/-- The bounds of a range in a message; a dash stands for either end of the keyspace. -/
def describe (r : KeyRange) : String :=
  let low := if r.low.isEmpty then "-" else Hex.encode r.low
  let high := match r.high with
    | .top => "-"
    | .key k => Hex.encode k
  "[" ++ low ++ ", " ++ high ++ ")"

end KeyRange

end Keyspace
