/-!
Binary search. `partitionPoint` finds where a predicate that holds on an initial part of an array stops
to hold: it holds below the point found and fails from it on.
-/
namespace Keyspace

/-- The middle of a search for the end of the part of `xs` where `p` holds. -/
def partitionPointFrom {α : Type} (xs : Array α) (p : α → Bool) (lo hi : Nat) (h : hi ≤ xs.size) :
    Nat :=
  if hlt : lo < hi then
    let mid := (lo + hi) / 2
    if p xs[mid] then partitionPointFrom xs p (mid + 1) hi h
    else partitionPointFrom xs p lo mid (by omega)
  else lo
termination_by hi - lo

/-- The number of elements on which `p` holds, for a `p` that holds on an initial part of `xs`. -/
def partitionPoint {α : Type} (xs : Array α) (p : α → Bool) : Nat :=
  partitionPointFrom xs p 0 xs.size (Nat.le_refl _)

section

variable {α : Type} {xs : Array α} {p : α → Bool}

theorem partitionPointFrom_le {lo hi : Nat} (h : hi ≤ xs.size) (hlo : lo ≤ hi) :
    partitionPointFrom xs p lo hi h ≤ hi := by
  fun_induction partitionPointFrom xs p lo hi h with
  | case1 lo hi h hlt mid _ ih => exact ih (by omega)
  | case2 lo hi h hlt mid _ ih => exact Nat.le_trans (ih (by omega)) (by omega)
  | case3 lo hi h hge => exact hlo

theorem partitionPoint_le_size : partitionPoint xs p ≤ xs.size :=
  partitionPointFrom_le _ (Nat.zero_le _)

theorem partitionPointFrom_spec (hp : xs.toList.Pairwise fun a b => p b → p a) {lo hi : Nat}
    (h : hi ≤ xs.size) (hlo : lo ≤ hi) (hbelow : ∀ i (hi : i < xs.size), i < lo → p xs[i])
    (habove : ∀ i (hi' : i < xs.size), hi ≤ i → p xs[i] = false) :
    (∀ i (hi' : i < xs.size), i < partitionPointFrom xs p lo hi h → p xs[i]) ∧
      ∀ i (hi' : i < xs.size), partitionPointFrom xs p lo hi h ≤ i → p xs[i] = false := by
  have hmono : ∀ i j (hi : i < xs.size) (hj : j < xs.size), i ≤ j → p xs[j] → p xs[i] := by
    intro i j hi hj hij hpj
    rcases Nat.lt_or_eq_of_le hij with hlt | rfl
    · have := List.pairwise_iff_getElem.1 hp i j (by simpa using hi) (by simpa using hj) hlt
      simpa using this (by simpa using hpj)
    · exact hpj
  fun_induction partitionPointFrom xs p lo hi h with
  | case1 lo hi h hlt mid hmid ih =>
    exact ih (by omega) (fun i hi' hi'' => hmono i mid hi' (by omega) (by omega) hmid) habove
  | case2 lo hi h hlt mid hmid ih =>
    refine ih (by omega) hbelow fun i hi' hle => ?_
    cases hpi : p xs[i] with
    | false => rfl
    | true => exact absurd (hmono mid i (by omega) hi' hle hpi) hmid
  | case3 lo hi h hge =>
    obtain rfl : lo = hi := by omega
    exact ⟨hbelow, habove⟩

/-- The predicate holds below the partition point. -/
theorem of_lt_partitionPoint (hp : xs.toList.Pairwise fun a b => p b → p a) {i : Nat}
    (hi : i < xs.size) (h : i < partitionPoint xs p) : p xs[i] :=
  (partitionPointFrom_spec hp _ (Nat.zero_le _) (by simp) (by omega)).1 i hi h

/-- The predicate fails from the partition point on. -/
theorem eq_false_of_partitionPoint_le (hp : xs.toList.Pairwise fun a b => p b → p a) {i : Nat}
    (hi : i < xs.size) (h : partitionPoint xs p ≤ i) : p xs[i] = false :=
  (partitionPointFrom_spec hp _ (Nat.zero_le _) (by simp) (by omega)).2 i hi h

end

end Keyspace
