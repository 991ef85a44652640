import Keyspace.Store

/-!
Running the actions of a store step by step: an action takes the state it starts from to its result and the
state it leaves, also where it fails.
-/
namespace Keyspace.StoreM

variable {ε σ τ α β : Type}

theorem bind_apply (x : ExceptT ε (StateM σ) α) (f : α → ExceptT ε (StateM σ) β) (s : σ) :
    (x >>= f) s = match x s with
      | (.ok a, s) => f a s
      | (.error why, s) => (.error why, s) := by
  change ExceptT.bindCont f (x s).1 (x s).2 = _
  rcases x s with ⟨why | a, s⟩ <;> rfl

@[simp] theorem pure_apply (a : α) (s : σ) : (pure a : StoreM σ α) s = (.ok a, s) := rfl

@[simp] theorem get_apply (s : σ) : (get : StoreM σ σ) s = (.ok s, s) := rfl

@[simp] theorem set_apply (s t : σ) : (set t : StoreM σ PUnit) s = (.ok (), t) := rfl

@[simp] theorem modify_apply (f : σ → σ) (s : σ) : (modify f : StoreM σ PUnit) s = (.ok (), f s) := rfl

@[simp] theorem throw_apply (why : StoreError) (s : σ) :
    (throw why : StoreM σ α) s = (.error why, s) := rfl

@[simp] theorem ofExcept_apply (r : Except StoreError α) (s : σ) :
    (ofExcept r : StoreM σ α) s = (r, s) := rfl

theorem map_apply (f : α → β) (x : StoreM σ α) (s : σ) : (f <$> x) s = ((x s).1.map f, (x s).2) := by
  rw [map_eq_pure_bind, bind_apply]
  rcases x s with ⟨why | a, s⟩ <;> rfl

theorem lift_apply (x : StateM σ α) (s : σ) : (ExceptT.lift x : ExceptT ε (StateM σ) α) s = (.ok (x s).1, (x s).2) := rfl

/-- A first action hands its result and the state on. -/
theorem stateM_bind {x : StateM σ α} {f : α → StateM σ β} {s t : σ} {a : α} (h : x s = (a, t)) :
    (x >>= f) s = f a t := by
  change f (x s).1 (x s).2 = f a t
  rw [h]

/-- A first action that succeeds hands its result on. -/
theorem bind_ok {x : ExceptT ε (StateM σ) α} {f : α → ExceptT ε (StateM σ) β} {s t : σ} {a : α}
    (h : x s = (.ok a, t)) : (x >>= f) s = f a t := by
  rw [bind_apply, h]

/-- A first action that fails is all that happens. -/
theorem bind_error {x : ExceptT ε (StateM σ) α} {f : α → ExceptT ε (StateM σ) β} {s t : σ} {why : ε}
    (h : x s = (.error why, t)) : (x >>= f) s = (.error why, t) := by
  rw [bind_apply, h]

theorem bind_fst_error {x : ExceptT ε (StateM σ) α} {f : α → ExceptT ε (StateM σ) β} {s : σ} {why : ε}
    (h : (x s).1 = .error why) : ((x >>= f) s).1 = .error why := by
  rw [bind_error (t := (x s).2) (Prod.ext h rfl)]

theorem tryCatch_apply (x : StoreM σ α) (f : StoreError → StoreM σ α) (s : σ) :
    tryCatch x f s = match x s with
      | (.ok a, s) => (.ok a, s)
      | (.error why, s) => f why s := by
  change ExceptT.tryCatch x f s = _
  rcases h : x s with ⟨why | a, t⟩
  · exact stateM_bind (x := x) h
  · exact stateM_bind (x := x) h

end Keyspace.StoreM
