import Mathlib.Data.List.Forall2

namespace Autodiff

variable {σ ε β γ : Type}

/-- States that actions only add to. -/
class Lasting (σ : Type) where
  /-- The condition that every state is to meet. -/
  Sound : σ → Prop
  /-- The second state has all that the first one has. -/
  Extends : σ → σ → Prop
  refl : ∀ s, Extends s s
  trans : ∀ {s s' s''}, Extends s s' → Extends s' s'' → Extends s s''

variable [Lasting σ] {s : σ}

/-- Run from a state, an action leads to a sound state that extends it, whether it succeeds or
fails. If it succeeds, its answer meets a condition. -/
def Keeps (act : EStateM ε σ β) (s : σ) (post : σ → β → Prop) : Prop :=
  match act s with
  | .ok x s' => Lasting.Sound s' ∧ Lasting.Extends s s' ∧ post s' x
  | .error _ s' => Lasting.Sound s' ∧ Lasting.Extends s s'

theorem Keeps.pure {post : σ → β → Prop} {x : β} (hs : Lasting.Sound s) (h : post s x) :
    Keeps (Pure.pure x : EStateM ε σ β) s post := ⟨hs, Lasting.refl s, h⟩

theorem Keeps.throw {post : σ → β → Prop} (hs : Lasting.Sound s) (e : ε) :
    Keeps (throw e : EStateM ε σ β) s post := ⟨hs, Lasting.refl s⟩

theorem Keeps.get_bind {post : σ → β → Prop} {f : σ → EStateM ε σ β} (hf : Keeps (f s) s post) :
    Keeps (get >>= f) s post := hf

theorem Keeps.mono {post post' : σ → β → Prop} {act : EStateM ε σ β} (h : Keeps act s post)
    (himp : ∀ s' x, Lasting.Extends s s' → post s' x → post' s' x) : Keeps act s post' := by
  unfold Keeps at h ⊢
  split at h
  next => exact ⟨h.1, h.2.1, himp _ _ h.2.1 h.2.2⟩
  next => exact h

theorem Keeps.bind {post : σ → β → Prop} {post' : σ → γ → Prop} {act : EStateM ε σ β}
    {f : β → EStateM ε σ γ} (h : Keeps act s post)
    (hf : ∀ x s', Lasting.Sound s' → Lasting.Extends s s' → post s' x → Keeps (f x) s' post') :
    Keeps (act >>= f) s post' := by
  unfold Keeps at h
  simp only [Keeps, Bind.bind, EStateM.bind]
  cases hact : act s with
  | error e s' =>
    rw [hact] at h
    exact h
  | ok x s' =>
    rw [hact] at h
    obtain ⟨hs', hext, hpost⟩ := h
    have hrest := hf x s' hs' hext hpost
    unfold Keeps at hrest
    dsimp only
    split at hrest
    next => exact ⟨hrest.1, Lasting.trans hext hrest.2.1, hrest.2.2⟩
    next => exact ⟨hrest.1, Lasting.trans hext hrest.2⟩

/-- Doing something for each entry of a list, where what holds of an answer goes on to hold. -/
theorem Keeps.mapM {f : β → EStateM ε σ γ} {post : σ → β → γ → Prop} (hs : Lasting.Sound s)
    (hpost : ∀ s₁ s₂ x y, Lasting.Extends s₁ s₂ → post s₁ x y → post s₂ x y) (xs : List β)
    (hf : ∀ x ∈ xs, ∀ s', Lasting.Sound s' → Lasting.Extends s s' →
      Keeps (f x) s' fun s'' y => post s'' x y) :
    Keeps (xs.mapM f) s fun s' ys => List.Forall₂ (post s') xs ys := by
  induction xs generalizing s with
  | nil => exact .pure hs .nil
  | cons x xs ih =>
    rw [List.mapM_cons]
    refine (hf x (by simp) s hs (Lasting.refl s)).bind fun y s₁ hs₁ hext hy => ?_
    have hrest := ih hs₁ fun x' hx' s' hs' hext' =>
      hf x' (by simp [hx']) s' hs' (Lasting.trans hext hext')
    refine hrest.bind fun ys s₂ hs₂ hext₂ hys => .pure hs₂ ?_
    exact .cons (hpost s₁ s₂ x y hext₂ hy) hys

/-- Taking up the entries of a list one by one. -/
theorem Keeps.foldlM {f : γ → β → EStateM ε σ γ} {inv : σ → γ → Prop} (hs : Lasting.Sound s)
    (xs : List β) {x : γ} (hx : inv s x)
    (hf : ∀ y ∈ xs, ∀ s' x', Lasting.Sound s' → inv s' x' → Keeps (f x' y) s' inv) :
    Keeps (xs.foldlM f x) s inv := by
  induction xs generalizing s x with
  | nil => exact .pure hs hx
  | cons y xs ih =>
    rw [List.foldlM_cons]
    refine (hf y (by simp) s x hs hx).bind fun x' s' hs' _ hx' => ?_
    exact ih hs' hx' fun z hz => hf z (by simp [hz])

end Autodiff
