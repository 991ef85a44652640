/-!
Finite maps kept as their entries in strictly ascending key order. The order is part of the type, so
two maps with the same entries are the same map, and every walk over a map is a walk in key order.
-/
namespace Keyspace

/-- A finite map, held as its entries in strictly ascending key order. -/
@[ext] structure SortedMap (κ α : Type) [LT κ] where
  toList : List (κ × α)
  ascending : toList.Pairwise fun a b => a.1 < b.1

namespace SortedMap

variable {κ α β : Type} [LT κ]

instance [DecidableEq κ] [DecidableEq α] : DecidableEq (SortedMap κ α) := fun a b =>
  decidable_of_iff (a.toList = b.toList) ⟨SortedMap.ext, congrArg toList⟩

def empty : SortedMap κ α := ⟨[], .nil⟩

instance : Inhabited (SortedMap κ α) := ⟨empty⟩

@[simp] theorem toList_empty : (empty : SortedMap κ α).toList = [] := rfl

def isEmpty (m : SortedMap κ α) : Bool := m.toList.isEmpty

def size (m : SortedMap κ α) : Nat := m.toList.length

def keys (m : SortedMap κ α) : List κ := m.toList.map (·.1)

def values (m : SortedMap κ α) : List α := m.toList.map (·.2)

def get? [DecidableEq κ] (m : SortedMap κ α) (k : κ) : Option α :=
  (m.toList.find? (·.1 = k)).map (·.2)

def contains [DecidableEq κ] (m : SortedMap κ α) (k : κ) : Bool := (m.get? k).isSome

/-- Puts an entry at its place in a list of ascending keys, replacing one with the same key. -/
def insertEntry [DecidableLT κ] (k : κ) (v : α) : List (κ × α) → List (κ × α)
  | [] => [(k, v)]
  | e :: es =>
    if k < e.1 then (k, v) :: e :: es
    else if e.1 < k then e :: insertEntry k v es
    else (k, v) :: es

theorem mem_insertEntry [DecidableLT κ] {k : κ} {v : α} {es : List (κ × α)} {e : κ × α}
    (h : e ∈ insertEntry k v es) : e = (k, v) ∨ e ∈ es := by
  induction es with
  | nil => simpa [insertEntry] using h
  | cons x xs ih => grind [insertEntry]

theorem ascending_insertEntry [LE κ] [DecidableLT κ] [Std.IsLinearOrder κ] [Std.LawfulOrderLT κ]
    (k : κ) (v : α) {es : List (κ × α)} (h : es.Pairwise fun a b => a.1 < b.1) :
    (insertEntry k v es).Pairwise fun a b => a.1 < b.1 := by
  induction es with
  | nil => simp [insertEntry]
  | cons x xs ih =>
    rw [List.pairwise_cons] at h
    rw [insertEntry]
    split
    · next hk =>
      refine List.pairwise_cons.2 ⟨fun e he => ?_, List.pairwise_cons.2 h⟩
      rcases List.mem_cons.1 he with rfl | he
      · exact hk
      · exact Std.lt_trans hk (h.1 e he)
    · split
      · next hx =>
        refine List.pairwise_cons.2 ⟨fun e he => ?_, ih h.2⟩
        rcases mem_insertEntry he with rfl | he
        · exact hx
        · exact h.1 e he
      · next hk hx =>
        refine List.pairwise_cons.2 ⟨fun e he => ?_, h.2⟩
        have := h.1 e he
        grind

section Linear

variable [LE κ] [DecidableLT κ] [Std.IsLinearOrder κ] [Std.LawfulOrderLT κ]

def insert (m : SortedMap κ α) (k : κ) (v : α) : SortedMap κ α :=
  ⟨insertEntry k v m.toList, ascending_insertEntry k v m.ascending⟩

@[simp] theorem toList_insert (m : SortedMap κ α) (k : κ) (v : α) :
    (m.insert k v).toList = insertEntry k v m.toList := rfl

/-- The map of a list of entries; of two entries with one key, the later one counts. -/
def ofList (es : List (κ × α)) : SortedMap κ α := es.foldl (fun m e => m.insert e.1 e.2) empty

end Linear

def filter (p : κ × α → Bool) (m : SortedMap κ α) : SortedMap κ α :=
  ⟨m.toList.filter p, m.ascending.filter _⟩

@[simp] theorem toList_filter (p : κ × α → Bool) (m : SortedMap κ α) :
    (m.filter p).toList = m.toList.filter p := rfl

def erase [DecidableEq κ] (m : SortedMap κ α) (k : κ) : SortedMap κ α := m.filter (·.1 ≠ k)

def mapValues (f : α → β) (m : SortedMap κ α) : SortedMap κ β :=
  ⟨m.toList.map fun e => (e.1, f e.2), List.pairwise_map.2 m.ascending⟩

@[simp] theorem toList_mapValues (f : α → β) (m : SortedMap κ α) :
    (m.mapValues f).toList = m.toList.map fun e => (e.1, f e.2) := rfl

end SortedMap

abbrev SortedSet (κ : Type) [LT κ] := SortedMap κ Unit

namespace SortedSet

variable {κ : Type} [LE κ] [LT κ] [DecidableLT κ] [Std.IsLinearOrder κ] [Std.LawfulOrderLT κ]

def ofKeys (ks : List κ) : SortedSet κ := SortedMap.ofList (ks.map (·, ()))

end SortedSet

end Keyspace
