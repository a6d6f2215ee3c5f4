import Mathlib.Data.List.Forall2
import Autodiff.Failure

namespace Autodiff

variable {α β γ ε σ : Type}

@[simp]
theorem ok_bind (x : β) (f : β → Except ε γ) : (Except.ok x >>= f) = f x := rfl

@[simp]
theorem error_bind (e : ε) (f : β → Except ε γ) : (Except.error e >>= f) = .error e := rfl

theorem bind_eq_ok {act : Except ε β} {f : β → Except ε γ} {y : γ} :
    (act >>= f) = .ok y ↔ ∃ x, act = .ok x ∧ f x = .ok y := by
  cases act with
  | error e => simp
  | ok x => simp

theorem bind_at_eq_ok {act : EStateM ε σ β} {f : β → EStateM ε σ γ} {s s'' : σ} {y : γ} :
    (act >>= f) s = .ok y s'' ↔ ∃ x s', act s = .ok x s' ∧ f x s' = .ok y s'' := by
  simp only [bind, EStateM.bind]
  cases act s with
  | ok x s' => simp
  | error e s' => simp

theorem toOption_eq_some {act : Except ε β} {x : β} : act.toOption = some x ↔ act = .ok x := by
  cases act with
  | error e => simp [Except.toOption]
  | ok y => simp [Except.toOption]

theorem mapError_eq_ok {ε' : Type} {act : Except ε β} {f : ε → ε'} {x : β} :
    act.mapError f = .ok x ↔ act = .ok x := by
  cases act with
  | error e => simp [Except.mapError]
  | ok x => simp [Except.mapError]

theorem mapM_eq_ok {f : β → Except ε γ} {g : β → γ} (xs : List β)
    (h : ∀ x ∈ xs, f x = .ok (g x)) : xs.mapM f = .ok (xs.map g) := by
  induction xs with
  | nil => rfl
  | cons x xs ih =>
    rw [List.mapM_cons, h x (by simp), ih fun y hy => h y (by simp [hy])]
    rfl

theorem forall₂_of_mapM {f : β → Except ε γ} {xs : List β} {ys : List γ}
    (h : xs.mapM f = .ok ys) : List.Forall₂ (fun x y => f x = .ok y) xs ys := by
  induction xs generalizing ys with
  | nil =>
    obtain rfl : [] = ys := Except.ok.inj h
    exact .nil
  | cons x xs ih =>
    rw [List.mapM_cons] at h
    obtain ⟨y, hy, h⟩ := bind_eq_ok.mp h
    obtain ⟨rest, hrest, h⟩ := bind_eq_ok.mp h
    obtain rfl := Except.ok.inj h
    exact .cons hy (ih hrest)

theorem mapM_eq_ok_iff {f : β → Except ε γ} {xs : List β} {ys : List γ} :
    xs.mapM f = .ok ys ↔ List.Forall₂ (fun x y => f x = .ok y) xs ys := by
  refine ⟨forall₂_of_mapM, fun h => ?_⟩
  induction h with
  | nil => rfl
  | cons hxy _ ih =>
    rw [List.mapM_cons, hxy, ok_bind, ih]
    rfl

/-- A list fails with the first failure of its entries. -/
theorem mapM_eq_error_iff {f : β → Except ε γ} {xs : List β} {e : ε} :
    xs.mapM f = .error e ↔ ∃ before x after, xs = before ++ x :: after ∧
      (∀ y ∈ before, ∃ r, f y = .ok r) ∧ f x = .error e := by
  induction xs with
  | nil => simp [pure, Except.pure]
  | cons x xs ih =>
    rw [List.mapM_cons]
    simp only [List.cons_eq_append_iff]
    cases hx : f x with
    | error e' =>
      rw [error_bind]
      constructor
      · intro h
        refine ⟨[], x, xs, Or.inl ⟨rfl, rfl⟩, nofun, ?_⟩
        rw [hx, Except.error.inj h]
      · rintro ⟨before, y, after, ⟨rfl, h⟩ | ⟨tail, rfl, -⟩, hbefore, hy⟩
        · obtain ⟨rfl, -⟩ := List.cons.inj h
          rw [hx] at hy
          rw [Except.error.inj hy]
        · obtain ⟨r, hr⟩ := hbefore x List.mem_cons_self
          rw [hx] at hr
          cases hr
    | ok r =>
      have hrest : (xs.mapM f >>= fun ys => (pure (r :: ys) : Except ε (List γ))) = .error e ↔
          xs.mapM f = .error e := by
        cases xs.mapM f with
        | error e' => simp
        | ok ys => exact iff_of_false nofun nofun
      rw [ok_bind, hrest, ih]
      constructor
      · rintro ⟨before, y, after, rfl, hbefore, hy⟩
        refine ⟨x :: before, y, after, Or.inr ⟨before, rfl, rfl⟩, fun z hz => ?_, hy⟩
        rcases List.mem_cons.mp hz with rfl | hz
        · exact ⟨r, hx⟩
        · exact hbefore z hz
      · rintro ⟨before, y, after, ⟨rfl, h⟩ | ⟨tail, rfl, htail⟩, hbefore, hy⟩
        · obtain ⟨rfl, -⟩ := List.cons.inj h
          rw [hx] at hy
          cases hy
        · exact ⟨tail, y, after, htail, fun z hz => hbefore z (List.mem_cons_of_mem _ hz), hy⟩

theorem exists_of_forall₂ {r : β → γ → Prop} {xs : List β} {ys : List γ}
    (h : List.Forall₂ r xs ys) {x : β} (hx : x ∈ xs) : ∃ y ∈ ys, r x y := by
  induction h with
  | nil => cases hx
  | cons hxy _ ih =>
    rcases List.mem_cons.mp hx with rfl | hx
    · exact ⟨_, List.mem_cons_self, hxy⟩
    · obtain ⟨y, hy, hr⟩ := ih hx
      exact ⟨y, List.mem_cons_of_mem _ hy, hr⟩

theorem map_eq_of_forall₂ {δ : Type} {r : β → γ → Prop} {xs : List β} {ys : List γ} {f : β → δ}
    {f' : γ → δ} (h : List.Forall₂ r xs ys) (hr : ∀ x y, r x y → f' y = f x) :
    ys.map f' = xs.map f := by
  induction h with
  | nil => rfl
  | cons hxy _ ih => rw [List.map_cons, List.map_cons, hr _ _ hxy, ih]

theorem fetch_eq_ok {xs : Array β} {i : Nat} {x : β} (h : xs[i]? = some x) :
    fetch (α := α) xs i = .ok x := by
  simp only [fetch, h]

theorem store_eq_ok {xs : Array β} {i : Nat} (h : i < xs.size) (x : β) :
    store (α := α) xs i x = .ok (xs.setIfInBounds i x) := by
  simp [store, Array.setIfInBounds, h]

end Autodiff
