import Autodiff.Proofs.RoundedArithmetic
import Autodiff.Proofs.Descent

namespace Autodiff

variable {α : Type}

/-- An interpolation gives the midpoint of a bracket, or a point that is at least a tenth of its
width away from both ends. -/
theorem interpolate_cases [Scalar α] (lo hi : Trial α) :
    ∃ a b, (a = lo.step ∧ b = hi.step ∧ a < b ∨ a = hi.step ∧ b = lo.step ∧ ¬b < a) ∧
      (interpolate lo hi = a + (b - a) / Scalar.two ∨
        ∃ x y, interpolate lo hi = b - (b - a) * x / y ∧
          Scalar.isFinite (interpolate lo hi) = true ∧
          ¬interpolate lo hi < a + (b - a) * Scalar.ratio 1 10 ∧
          ¬b - (b - a) * Scalar.ratio 1 10 < interpolate lo hi) := by
  obtain ⟨a, b, hends, heq⟩ : ∃ a b : Trial α,
      (a.step = lo.step ∧ b.step = hi.step ∧ a.step < b.step ∨
        a.step = hi.step ∧ b.step = lo.step ∧ ¬b.step < a.step) ∧
      (if lo.step < hi.step then (lo, hi) else (hi, lo)) = (a, b) := by
    by_cases h : lo.step < hi.step
    · exact ⟨lo, hi, Or.inl ⟨rfl, rfl, h⟩, if_pos h⟩
    · exact ⟨hi, lo, Or.inr ⟨rfl, rfl, h⟩, if_neg h⟩
  refine ⟨a.step, b.step, hends, ?_⟩
  rw [interpolate, heq]
  dsimp only
  split
  next => exact Or.inl rfl
  next =>
    split
    next => exact Or.inl rfl
    next =>
      split
      next => exact Or.inl rfl
      next hinside =>
        simp only [Bool.or_eq_true, Bool.not_eq_true', decide_eq_true_eq, not_or,
          Bool.not_eq_false] at hinside
        exact Or.inr ⟨_, _, rfl, hinside.1.1, hinside.1.2, hinside.2⟩

section Rounded

open Scalar (IsDefined)

variable [Scalar α] [RoundedScalar α]

/-- The ends of a bracket in order. -/
theorem interpolate_not_neg {lo hi : Trial α} (hlo : ¬lo.step < 0) (hhi : ¬hi.step < 0) :
    ¬interpolate lo hi < 0 := by
  obtain ⟨a, b, hends, hcases⟩ := interpolate_cases lo hi
  have ha : ¬a < 0 := by
    rcases hends with ⟨rfl, -, -⟩ | ⟨rfl, -, -⟩
    · exact hlo
    · exact hhi
  have hba : ¬b < a := by
    rcases hends with ⟨-, -, h⟩ | ⟨-, -, h⟩
    · exact RoundedScalar.lt_asymm h
    · exact h
  have hwidth : ¬b - a < 0 := RoundedScalar.sub_nonneg a b hba
  rcases hcases with hmid | ⟨x, y, ht, hfinite, hleft, -⟩
  · rw [hmid]
    exact RoundedScalar.add_nonneg _ _ ha
      (RoundedScalar.div_nonneg _ _ hwidth RoundedScalar.zero_lt_two)
  · -- As the point is defined, all that it was worked out from is, and so is the margin.
    have hdefined : IsDefined (b - (b - a) * x / y) :=
      ht ▸ RoundedScalar.defined_of_isFinite _ hfinite
    have hquotient := (RoundedScalar.defined_of_sub _ _ hdefined).2
    have hproduct := (RoundedScalar.defined_of_div _ _ hquotient).1
    have hw := (RoundedScalar.defined_of_mul _ _ hproduct).1
    have hda := (RoundedScalar.defined_of_sub _ _ hw).2
    have hmargin := RoundedScalar.mul_defined _ _ hw RoundedScalar.zero_lt_tenth
      RoundedScalar.tenth_lt_one
    have hmargin' : ¬(b - a) * Scalar.ratio 1 10 < 0 :=
      RoundedScalar.mul_nonneg _ _ hwidth (RoundedScalar.lt_asymm RoundedScalar.zero_lt_tenth)
    have hlimit := RoundedScalar.add_defined _ _ hda hmargin ha hmargin'
    exact RoundedScalar.not_neg_of_not_lt hlimit (RoundedScalar.add_nonneg _ _ ha hmargin') hleft

namespace Line

/-- A step at which the first condition can be checked is defined. -/
theorem defined_of_decreases {l : Line α} {t : Trial α} (h : l.decreases t = true) :
    IsDefined t.step := by
  rw [decreases, Bool.and_eq_true, decide_eq_true_eq] at h
  have hsum := (RoundedScalar.defined_of_le _ _ h.2).2
  have hproduct := (RoundedScalar.defined_of_add _ _ hsum).2
  exact (RoundedScalar.defined_of_mul _ _ (RoundedScalar.defined_of_mul _ _ hproduct).1).2

/-- No search tries a negative step. -/
theorem range_not_neg (l : Line α) : l.Range (fun s => ¬s < 0) fun s => ¬s < 0 where
  start := RoundedScalar.lt_irrefl 0
  tried_ends _ h := h
  interpolate _ _ hlo hhi _ _ := interpolate_not_neg hlo hhi
  widen t ht hdec hmax := by
    have hmaxStep : ¬l.params.maxStep < 0 := by
      intro hneg
      have hdefined := (RoundedScalar.lt_iff _ _).mp hneg
      have hlt : t.step < l.params.maxStep :=
        RoundedScalar.lt_of_not_le (defined_of_decreases hdec) hdefined.1 hmax
      exact ht (RoundedScalar.lt_of_lt_of_le hlt (RoundedScalar.le_of_lt _ _ hneg))
    have hdouble : ¬t.step * Scalar.two < 0 :=
      RoundedScalar.mul_nonneg _ _ ht (RoundedScalar.lt_asymm RoundedScalar.zero_lt_two)
    unfold Scalar.min
    split
    next => exact hmaxStep
    next =>
      split
      next => exact hmaxStep
      next => exact hdouble

/-- A step that meets the first condition does not lead upwards. -/
theorem Settles.value_le {l : Line α} {gradient : List α} {calls : List (Call α)}
    {a : AcceptedStep α} (h : l.Settles (fun s => ¬s < 0) gradient calls a)
    (hfinite : Scalar.isFinite l.value = true) (hc1 : 0 ≤ l.params.c1) (hslope : l.slope < 0) :
    a.value ≤ l.value := by
  rcases h with ⟨-, -, hle, hstep⟩ | ⟨hlt, -, -, -⟩
  · have hc1' : ¬l.params.c1 < 0 := RoundedScalar.not_lt_of_le hc1
    have hproduct : ¬l.params.c1 * a.step < 0 := RoundedScalar.mul_nonneg _ _ hc1' hstep
    have hnonpos : ¬0 < l.params.c1 * a.step * l.slope :=
      RoundedScalar.mul_nonpos _ _ hproduct hslope
    exact RoundedScalar.le_of_le_add _ _ _ hfinite hnonpos hle
  · exact absurd hlt (RoundedScalar.lt_irrefl 0)

end Line

theorem slope_neg {slope : α} (h : ¬0 ≤ slope) (hnan : Scalar.isNaN slope = false) : slope < 0 :=
  RoundedScalar.lt_of_not_le (RoundedScalar.defined_of_isNaN _ hnan) RoundedScalar.defined_zero h

theorem Descent.Stands.firstStep_not_neg {n : Nat} {calls : List (Call α)} {s : Descent α}
    (h : s.Stands n calls) : ¬s.firstStep < 0 := by
  have hone : ¬(1 : α) < 0 := RoundedScalar.lt_asymm RoundedScalar.zero_lt_one
  unfold Descent.firstStep Scalar.min
  rw [h.gradientNorm]
  split
  next =>
    split
    next => exact hone
    next =>
      split
      next => exact hone
      next => exact RoundedScalar.one_div_norm _
  next => exact hone

end Rounded

section Exact

variable [OrderedScalar α]

theorem interpolate_pos {lo hi : Trial α} (hlo : 0 ≤ lo.step) (hhi : 0 ≤ hi.step)
    (hne : interpolate lo hi ≠ lo.step) : 0 < interpolate lo hi := by
  obtain ⟨a, b, hends, hcases⟩ := interpolate_cases lo hi
  rw [OrderedScalar.two_eq, OrderedScalar.tenth_eq] at hcases
  have ha : 0 ≤ a := by
    rcases hends with ⟨rfl, -, -⟩ | ⟨rfl, -, -⟩
    · exact hlo
    · exact hhi
  have hab : a ≤ b := by
    rcases hends with ⟨-, -, h⟩ | ⟨-, -, h⟩
    · exact h.le
    · exact not_lt.mp h
  have hlt : a < b := by
    refine lt_of_le_of_ne hab fun heq => hne ?_
    have hlo' : lo.step = b := by
      rcases hends with ⟨h, -, -⟩ | ⟨-, h, -⟩
      · rw [← h, heq]
      · exact h.symm
    -- The bracket has no width, so all that can come of it is its only point.
    rcases hcases with h | ⟨x, y, h, -⟩
    · rw [h, heq, hlo', sub_self, zero_div, add_zero]
    · rw [h, heq, hlo', sub_self, zero_mul, zero_div, sub_zero]
  rcases hcases with hmid | ⟨x, y, -, -, hleft, -⟩
  · rw [hmid]
    linarith
  · have hmargin : a + (b - a) * (1 / 10) ≤ interpolate lo hi := not_lt.mp hleft
    linarith

namespace Line

/-- In exact arithmetic, searches try positive steps only. -/
theorem range_pos (l : Line α) : l.Range (fun s => 0 ≤ s) fun s => 0 < s where
  start := le_refl 0
  tried_ends _ h := h.le
  interpolate lo hi hlo hhi hne _ := by
    refine interpolate_pos hlo hhi fun heq => ?_
    rw [(ExactScalar.beq_iff _ _).mpr heq] at hne
    cases hne
  widen t ht _ hmax := by
    have hmaxStep : 0 < l.params.maxStep := ht.trans (not_le.mp hmax)
    have hdouble : 0 < t.step * Scalar.two := by
      rw [OrderedScalar.two_eq]
      exact mul_pos ht two_pos
    unfold Scalar.min
    split
    next => exact hmaxStep
    next =>
      split
      next => exact hmaxStep
      next => exact hdouble

theorem Settles.value_lt {l : Line α} {gradient : List α} {calls : List (Call α)}
    {a : AcceptedStep α} (h : l.Settles (fun s => 0 < s) gradient calls a)
    (hc1 : 0 < l.params.c1) (hslope : l.slope < 0) : a.value < l.value := by
  rcases h with ⟨-, -, hle, hstep⟩ | ⟨hlt, -, -, -⟩
  · have hdrop : l.params.c1 * a.step * l.slope < 0 :=
      mul_neg_of_pos_of_neg (mul_pos hc1 hstep) hslope
    linarith
  · exact absurd hlt (lt_irrefl 0)

end Line

theorem Descent.Stands.firstStep_pos [PositiveRoots α] {n : Nat} {calls : List (Call α)}
    {s : Descent α} (h : s.Stands n calls) (hslope : dot s.reply.gradient s.direction < 0) :
    0 < s.firstStep := by
  unfold Descent.firstStep Scalar.min
  split
  next hempty =>
    have hdirection : s.direction = s.reply.gradient.map (- ·) := by
      rw [Descent.direction, List.isEmpty_iff.mp hempty]
      rfl
    have hpos : 0 < dot s.reply.gradient s.reply.gradient := by
      rw [hdirection, dot_neg] at hslope
      exact neg_neg_iff_pos.mp hslope
    have hnorm : 0 < s.gradientNorm := by
      rw [h.gradientNorm]
      exact PositiveRoots.sqrt_pos _ hpos
    split
    next => exact one_pos
    next =>
      split
      next => exact one_pos
      next => exact one_div_pos.mpr hnorm
  next => exact one_pos

end Exact

end Autodiff
