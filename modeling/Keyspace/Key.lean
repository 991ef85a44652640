import Keyspace.Text.Hex

/-!
Keys are byte strings in lexicographic order. A range of keys ends below a `Bound`, which is a key or
the end of the keyspace; the bounds are ordered with the end of the keyspace last.
-/
namespace Keyspace

abbrev Key := List UInt8

abbrev Value := List UInt8

namespace Key

instance : Std.IsLinearOrder Key := List.instIsLinearOrder

instance : Std.LawfulOrderLT Key := inferInstanceAs (Std.LawfulOrderLT (List UInt8))

/-- The least key above `k`: no key lies between `k` and its successor. -/
def successor (k : Key) : Key := k ++ [0]

def describe (k : Key) : String := if k.isEmpty then "<empty>" else Hex.encode k

end Key

/-- An exclusive upper bound on keys. -/
inductive Bound where
  | key (k : Key)
  | top
  deriving DecidableEq, Repr, Inhabited

namespace Bound

instance : Coe Key Bound := ⟨key⟩

instance : LT Bound where
  lt
    | key a, key b => a < b
    | key _, top => True
    | top, _ => False

instance : LE Bound where
  le
    | key a, key b => a ≤ b
    | _, top => True
    | top, key _ => False

@[simp, grind =] theorem key_lt_key (a b : Key) : (key a < key b) = (a < b) := rfl

@[simp, grind =] theorem key_lt_top (a : Key) : (key a < top) = True := rfl

@[simp, grind =] theorem top_lt (b : Bound) : (top < b) = False := by cases b <;> rfl

@[simp, grind =] theorem key_le_key (a b : Key) : (key a ≤ key b) = (a ≤ b) := rfl

@[simp, grind =] theorem le_top (a : Bound) : (a ≤ top) = True := by cases a <;> rfl

@[simp, grind =] theorem top_le_key (b : Key) : (top ≤ key b) = False := rfl

instance : DecidableLT Bound
  | key a, key b => inferInstanceAs (Decidable (a < b))
  | key _, top => isTrue trivial
  | top, key _ => isFalse id
  | top, top => isFalse id

instance : DecidableLE Bound
  | key a, key b => inferInstanceAs (Decidable (a ≤ b))
  | key _, top => isTrue trivial
  | top, key _ => isFalse id
  | top, top => isTrue trivial

instance : Std.IsLinearOrder Bound where
  le_refl a := by cases a <;> simp
  le_trans a b c := by
    cases a <;> cases b <;> cases c <;> simp
    exact List.le_trans
  le_antisymm a b := by
    cases a <;> cases b <;> simp
    exact List.le_antisymm
  le_total a b := by
    cases a <;> cases b <;> simp
    exact List.le_total _ _

instance : Std.LawfulOrderLT Bound where
  lt_iff a b := by
    cases a <;> cases b <;> simp
    grind

def compare (a b : Bound) : Ordering := if a < b then .lt else if b < a then .gt else .eq

protected def min (a b : Bound) : Bound := if b < a then b else a

protected def max (a b : Bound) : Bound := if a < b then b else a

theorem le_max_right (a b : Bound) : b ≤ a.max b := by
  unfold Bound.max
  split <;> grind

end Bound

namespace Key

def isBelow (k : Key) (b : Bound) : Bool := decide (Bound.key k < b)

/-- The least bound above every key that starts with `p`: the last byte that is not `0xff` goes up by
one and the bytes after it go away; without such a byte it is the end of the keyspace. -/
def afterPrefix (p : Key) : Bound :=
  match p.reverse.dropWhile (· = 255) with
  | [] => .top
  | b :: rest => .key (rest.reverse ++ [b + 1])

end Key

end Keyspace
