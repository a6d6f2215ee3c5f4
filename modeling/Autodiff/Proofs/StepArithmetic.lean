import Autodiff.Proofs.MonotoneDescent

namespace Autodiff

open Scalar (IsDefined)

/-- What rounding leaves of the laws that keep steps in their range: adding and subtracting what is
not negative lead upwards and downwards, a midpoint is no larger than the end above it, and a
number keeps its sign when it is doubled. -/
class RangedScalar (α : Type) [Scalar α] : Prop extends RoundedScalar α where
  beq_of_le (a b : α) : a ≤ b → b ≤ a → (a == b) = true
  double_pos (a : α) : 0 < a → 0 < a * Scalar.two
  le_add (a b : α) : IsDefined (a + b) → ¬b < 0 → a ≤ a + b
  sub_le (a b : α) : IsDefined (a - b) → ¬b < 0 → a - b ≤ a
  sub_defined (a b c : α) : Scalar.isFinite (a - b) = true → IsDefined c → IsDefined (a - c)
  midpoint_le (a b : α) : ¬a < 0 → ¬b < a → IsDefined (a + (b - a) / Scalar.two) →
    a + (b - a) / Scalar.two ≤ b
  le_mul_neg (a b c : α) : c ≤ -a * b → c ≤ a * -b

instance {α : Type} [OrderedScalar α] [PositiveRoots α] : RangedScalar α where
  beq_of_le a b hab hba := (ExactScalar.beq_iff a b).mpr (le_antisymm hab hba)
  double_pos a ha := mul_pos ha RoundedScalar.zero_lt_two
  le_add a b _ hb := le_add_of_nonneg_right (not_lt.mp hb)
  sub_le a b _ hb := sub_le_self a (not_lt.mp hb)
  sub_defined a b c _ _ := le_refl (a - c)
  midpoint_le a b _ hab _ := by
    rw [OrderedScalar.two_eq]
    linarith [not_lt.mp hab]
  le_mul_neg a b c h := by rwa [mul_neg, ← neg_mul]

variable {α : Type} [Scalar α] [RangedScalar α]

theorem Scalar.isNaN_of_defined {a : α} (h : IsDefined a) : Scalar.isNaN a = false := by
  rw [Scalar.isNaN, RangedScalar.beq_of_le a a h h]
  rfl

theorem Scalar.le_max_left {a b : α} (ha : IsDefined a) :
    a ≤ Scalar.max a b := by
  rw [Scalar.max, Scalar.isNaN_of_defined ha, if_neg Bool.false_ne_true]
  split
  next h => exact RoundedScalar.le_of_lt _ _ h
  next => exact ha

theorem Scalar.le_max_right {a b : α} (ha : IsDefined a) (hb : IsDefined b) :
    b ≤ Scalar.max a b := by
  rw [Scalar.max, Scalar.isNaN_of_defined ha, if_neg Bool.false_ne_true]
  split
  next => exact hb
  next h => exact RoundedScalar.le_of_not_lt ha hb h

/-- An interpolated step is not outside the bracket. -/
theorem interpolate_between {lo hi : Trial α} (hlo : ¬lo.step < 0) (hhi : ¬hi.step < 0)
    (hdefined : IsDefined (interpolate lo hi)) :
    ∃ a b, (a = lo.step ∧ b = hi.step ∨ a = hi.step ∧ b = lo.step) ∧
      a ≤ interpolate lo hi ∧ interpolate lo hi ≤ b := by
  obtain ⟨a, b, hends, hcases⟩ := interpolate_cases lo hi
  have hsame : a = lo.step ∧ b = hi.step ∨ a = hi.step ∧ b = lo.step :=
    hends.imp (fun h => ⟨h.1, h.2.1⟩) fun h => ⟨h.1, h.2.1⟩
  have ha : ¬a < 0 := by
    rcases hsame with ⟨rfl, -⟩ | ⟨rfl, -⟩
    · exact hlo
    · exact hhi
  have hba : ¬b < a := by
    rcases hends with ⟨-, -, h⟩ | ⟨-, -, h⟩
    · exact RoundedScalar.lt_asymm h
    · exact h
  have hwidth : ¬b - a < 0 := RoundedScalar.sub_nonneg a b hba
  refine ⟨a, b, hsame, ?_⟩
  rcases hcases with hmid | ⟨x, y, ht, hfinite, hleft, hright⟩
  · rw [hmid] at hdefined ⊢
    have hhalf : ¬(b - a) / Scalar.two < 0 :=
      RoundedScalar.div_nonneg _ _ hwidth RoundedScalar.zero_lt_two
    exact ⟨RangedScalar.le_add _ _ hdefined hhalf, RangedScalar.midpoint_le _ _ ha hba hdefined⟩
  · have hall : IsDefined (b - (b - a) * x / y) := ht ▸ hdefined
    have hproduct := (RoundedScalar.defined_of_div _ _ (RoundedScalar.defined_of_sub _ _ hall).2).1
    have hw := (RoundedScalar.defined_of_mul _ _ hproduct).1
    have hda := (RoundedScalar.defined_of_sub _ _ hw).2
    have hmargin := RoundedScalar.mul_defined _ _ hw RoundedScalar.zero_lt_tenth
      RoundedScalar.tenth_lt_one
    have hmargin' : ¬(b - a) * Scalar.ratio 1 10 < 0 :=
      RoundedScalar.mul_nonneg _ _ hwidth (RoundedScalar.lt_asymm RoundedScalar.zero_lt_tenth)
    have hlower := RoundedScalar.add_defined _ _ hda hmargin ha hmargin'
    have hupper := RangedScalar.sub_defined _ _ _ (ht ▸ hfinite) hmargin
    constructor
    · exact RoundedScalar.le_trans _ _ _ (RangedScalar.le_add _ _ hlower hmargin')
        (RoundedScalar.le_of_not_lt hdefined hlower hleft)
    · exact RoundedScalar.le_trans _ _ _ (RoundedScalar.le_of_not_lt hupper hdefined hright)
        (RangedScalar.sub_le _ _ hupper hmargin')

end Autodiff
