import Autodiff.Proofs.FloatArithmetic
import Autodiff.Proofs.StepArithmetic
import Autodiff.Proofs.BinaryHalving

namespace Autodiff

open Float.Model (UnpackedFloat)
open Scalar (IsDefined)
open Binary

/-- Numbers in a binary format whose signs can be changed and whose two is the format's. -/
class HalvedScalar (α : Type) [Scalar α] extends BinaryScalar α where
  read_neg (a : α) : read (-a) = repack format (read a).neg
  read_two : read (Scalar.two : α) = Binary.two format

namespace HalvedScalar

open BinaryScalar

variable {α : Type} [Scalar α] [HalvedScalar α] {a b c : α}

theorem isFinite_read (ha : IsDefined a) (hlow : 0 ≤ value a)
    (hhigh : value a < top (format α)) : (read a).isFinite = true := by
  have htop := top_pos (format α)
  exact isFinite_of_lt_top (defined_iff.mp ha) (by unfold value at hlow; omega) hhigh

theorem value_nonneg (h : ¬a < 0) : 0 ≤ value a :=
  (scaled_nonneg_iff _ _).mpr (not_lt_zero_iff.mp h)

theorem le_add (h : IsDefined (a + b)) (hb : ¬b < 0) : a ≤ a + b := by
  have hsum := h
  rw [defined_iff, read_add, isNaN_repack] at hsum
  refine le_iff_value.mpr ⟨(defined_of_add h).1, h, ?_⟩
  rw [value, value, read_add]
  exact le_scaled_add_left least_le (representable a) (representable b) hsum (value_nonneg hb)

theorem sub_le (h : IsDefined (a - b)) (hb : ¬b < 0) : a - b ≤ a := by
  have hdifference := h
  rw [defined_iff, read_sub, isNaN_repack, sub_eq_add_neg] at hdifference
  refine le_iff_value.mpr ⟨h, (RoundedScalar.defined_of_sub a b h).1, ?_⟩
  rw [value, value, read_sub, sub_eq_add_neg]
  apply scaled_add_le_left least_le (representable a) (representable b).neg hdifference
  rw [scaled_neg]
  exact Int.neg_nonpos_of_nonneg (value_nonneg hb)

theorem value_add_le (ha : (read a).isFinite = true) (hb : (read b).isFinite = true)
    (hc : (read c).isFinite = true) (h : value a + value b ≤ value c) :
    value (a + b) ≤ value c := by
  rw [value, read_add]
  exact scaled_add_le_of_le least_le (representable a) (representable b) (representable c) ha hb hc
    h

theorem isClose_sub (ha : (read a).isFinite = true) (hb : (read b).isFinite = true)
    (h : value a ≤ value b) : IsClose (value b - value a) (value (b - a)) := by
  have hneg : scaled (format α) (read a).neg = -value a := scaled_neg _ _
  rw [Int.sub_eq_add_neg, ← hneg, value, value, read_sub, sub_eq_add_neg]
  apply isClose_add least_le (representable b) (representable a).neg hb ((isFinite_neg _).trans ha)
  rw [hneg]
  exact Int.sub_nonneg_of_le h

theorem two_mul_half_le (hfinite : (read a).isFinite = true) (h : 0 ≤ value a) :
    2 * value (a / Scalar.two) ≤ value a + value a % 2 := by
  rw [value, read_div, read_two]
  exact two_mul_scaled_half_le least_le (representable a) hfinite h

theorem midpoint_le (ha : ¬a < 0) (hba : ¬b < a) (h : IsDefined (a + (b - a) / Scalar.two)) :
    a + (b - a) / Scalar.two ≤ b := by
  obtain ⟨hda, hhalf⟩ := RoundedScalar.defined_of_add _ _ h
  have hwidth := (RoundedScalar.defined_of_div _ _ hhalf).1
  have hdb := (RoundedScalar.defined_of_sub _ _ hwidth).1
  have hle : value a ≤ value b :=
    (le_iff_value.mp (RoundedScalar.le_of_not_lt hdb hda hba)).2.2
  refine le_iff_value.mpr ⟨h, hdb, ?_⟩
  by_cases hb : value b < top (format α)
  · have ha0 : 0 ≤ value a := value_nonneg ha
    have hfa := isFinite_read hda ha0 (hle.trans_lt hb)
    have hfb := isFinite_read hdb (ha0.trans hle) hb
    have hneg : ¬b - a < 0 := RoundedScalar.sub_nonneg a b hba
    have hwidth0 : 0 ≤ value (b - a) := value_nonneg hneg
    have hwidth_le : value (b - a) ≤ value b := (le_iff_value.mp (sub_le hwidth ha)).2.2
    have hhalf0 : 0 ≤ value ((b - a) / Scalar.two) :=
      value_nonneg (RoundedScalar.div_nonneg _ _ hneg zero_lt_two)
    have htwice := two_mul_half_le (isFinite_read hwidth hwidth0 (hwidth_le.trans_lt hb)) hwidth0
    -- Half of a width is rounded up only where the width is odd, and there it is exact.
    have hsum : value a + value ((b - a) / Scalar.two) ≤ value b := by
      have hclose := isClose_sub hfa hfb hle
      have hdouble := hclose.le
      have hodd := hclose.eq
      omega
    exact value_add_le hfa (isFinite_read hhalf hhalf0 (by omega)) hfb hsum
  · exact (scaled_le_top (representable _)).trans (not_lt.mp hb)

instance : RangedScalar α where
  beq_of_le a b hab hba := by
    obtain ⟨ha, hb, hle⟩ := le_iff_value.mp hab
    have hge := (le_iff_value.mp hba).2.2
    rw [beq_eq, UnpackedFloat.beq, beq_iff_eq,
      compare_eq_some_iff (representable a) (representable b)]
    exact ⟨defined_iff.mp ha, defined_iff.mp hb, compare_eq_iff_eq.mpr (le_antisymm hle hge)⟩
  double_pos a h := by
    obtain ⟨hzero, -, hpos⟩ := lt_iff_value.mp h
    have hvalue : value (0 : α) = 0 := by
      rw [value, read_zero]
      rfl
    rw [hvalue] at hpos
    have hdouble : 0 < value (a * Scalar.two) := by
      rw [value, read_mul, read_two]
      exact mul_two_pos least_le (representable a) hpos
    exact lt_iff_value.mpr
      ⟨hzero, defined_iff.mpr (defined_of_scaled_pos hdouble), hvalue ▸ hdouble⟩
  le_add _ _ := le_add
  sub_le _ _ := sub_le
  sub_defined a b c hfinite hc := by
    rw [isFinite_eq, read_sub, sub_eq_add_neg] at hfinite
    rw [defined_iff, read_sub, isNaN_repack, sub_eq_add_neg]
    rw [defined_iff, ← isNaN_neg] at hc
    exact add_defined_of_isFinite (isFinite_of_add hfinite) hc
  midpoint_le _ _ := midpoint_le
  le_mul_neg a b c h := by
    have hread : read (-a * b) = read (a * -b) := by
      rw [read_mul, read_mul, read_neg, read_neg, repack_of_representable (representable a).neg,
        repack_of_representable (representable b).neg, mul_neg_left]
    rw [BinaryScalar.le_iff] at h ⊢
    rwa [hread] at h

end HalvedScalar

instance : HalvedScalar Float where
  read_neg a := rfl
  read_two := by rfl

instance : HalvedScalar Float32 where
  read_neg a := rfl
  read_two := by rfl

end Autodiff
