import Autodiff.Proofs.RangedFloats
import Autodiff.Proofs.BinaryScaling

namespace Autodiff

open Float.Model (UnpackedFloat)
open Scalar (IsDefined)
open Binary

/-- What rounding leaves of the laws of scaling: numbers from one on make a factor no smaller and a
dividend no larger. -/
class ScalingScalar (α : Type) [Scalar α] : Prop extends RangedScalar α where
  le_mul (a b : α) : 0 < a → 1 ≤ b → a ≤ a * b
  div_le (a b : α) : ¬a < 0 → IsDefined (a / b) → 1 ≤ b → a / b ≤ a
  div_defined (a b : α) : ¬a < 0 → a ≤ 1 → 1 ≤ b → IsDefined (a / b)

instance {α : Type} [OrderedScalar α] [PositiveRoots α] : ScalingScalar α where
  le_mul _ _ ha hb := le_mul_of_one_le_right ha.le hb
  div_le _ _ ha _ hb := div_le_self (not_lt.mp ha) hb
  div_defined a b _ _ _ := le_refl (a / b)

/-- Numbers in a binary format whose one is the format's. -/
class UnitScalar (α : Type) [Scalar α] extends HalvedScalar α where
  read_one : read (1 : α) = Binary.one format

namespace UnitScalar

open BinaryScalar

variable {α : Type} [Scalar α] [UnitScalar α] {a b : α}

theorem one_le_value (h : 1 ≤ b) :
    scaled (format α) (one (format α)) ≤ scaled (format α) (read b) := by
  have hle := (le_iff_value.mp h).2.2
  rwa [value, read_one] at hle

theorem le_mul (ha : 0 < a) (hb : 1 ≤ b) : a ≤ a * b := by
  obtain ⟨-, hdefined, hpos⟩ := lt_iff_value.mp ha
  rw [value, read_zero, scaled_zero] at hpos
  have hle : value a ≤ value (a * b) := by
    rw [value, value, read_mul]
    exact le_scaled_mul least_le (representable a) (representable b) hpos (one_le_value hb)
  exact le_iff_value.mpr
    ⟨hdefined, defined_iff.mpr (defined_of_scaled_pos (hpos.trans_le hle)), hle⟩

theorem div_le (ha : ¬a < 0) (h : IsDefined (a / b)) (hb : 1 ≤ b) : a / b ≤ a := by
  have hquotient := h
  rw [defined_iff, read_div, isNaN_repack] at hquotient
  refine le_iff_value.mpr ⟨h, (RoundedScalar.defined_of_div a b h).1, ?_⟩
  rw [value, value, read_div]
  exact scaled_div_le least_le (representable a) (representable b) (HalvedScalar.value_nonneg ha)
    hquotient (one_le_value hb)

theorem div_defined (ha : ¬a < 0) (hle : a ≤ 1) (hb : 1 ≤ b) : IsDefined (a / b) := by
  obtain ⟨hdefined, -, hvalue⟩ := le_iff_value.mp hle
  have hone : value (1 : α) = scaled (format α) (one (format α)) := by
    rw [value, read_one]
  have hfinite : (read a).isFinite = true :=
    isFinite_of_le_one least_le (defined_iff.mp hdefined) (HalvedScalar.value_nonneg ha)
      (hvalue.trans hone.le)
  rw [defined_iff, read_div, isNaN_repack]
  exact Binary.div_defined least_le hfinite (representable b) (one_le_value hb)

instance : ScalingScalar α where
  le_mul _ _ := le_mul
  div_le _ _ := div_le
  div_defined _ _ := div_defined

end UnitScalar

instance : UnitScalar Float where
  read_one := by rfl

instance : UnitScalar Float32 where
  read_one := by rfl

variable {α : Type} [Scalar α] [ScalingScalar α] {a b c : α}

namespace Scalar

/-- A value with a lower limit. An undefined limit is none. -/
structure AtLeast (floor a : α) : Prop where
  not_lt : ¬a < floor
  le : IsDefined floor → floor ≤ a

/-- The larger of a value and a limit keeps the limit, even if the value is undefined. -/
theorem atLeast_max (a floor : α) : AtLeast floor (Scalar.max a floor) := by
  have hle (h : IsDefined floor) : floor ≤ Scalar.max a floor := by
    cases hnan : Scalar.isNaN a with
    | true => rwa [Scalar.max, if_pos hnan]
    | false => exact Scalar.le_max_right (RoundedScalar.defined_of_isNaN a hnan) h
  refine ⟨fun hlt => ?_, hle⟩
  have hdefined := ((RoundedScalar.lt_iff _ _).mp hlt).2.1
  exact RoundedScalar.not_lt_of_le (hle hdefined) hlt

theorem isNaN_iff : Scalar.isNaN a = true ↔ ¬IsDefined a := by
  constructor
  · intro hnan hdefined
    rw [Scalar.isNaN_of_defined hdefined] at hnan
    exact Bool.false_ne_true hnan
  · intro hdefined
    by_contra hnan
    exact hdefined (RoundedScalar.defined_of_isNaN a (Bool.eq_false_of_not_eq_true hnan))

theorem min_le_right (ha : IsDefined a) (hb : IsDefined b) : Scalar.min a b ≤ b := by
  rw [Scalar.min, Scalar.isNaN_of_defined ha, if_neg Bool.false_ne_true]
  split
  next => exact hb
  next h => exact RoundedScalar.le_of_not_lt hb ha h

theorem le_min (ha : c ≤ a) (hb : c ≤ b) : c ≤ Scalar.min a b := by
  rw [Scalar.min, Scalar.isNaN_of_defined (RoundedScalar.defined_of_le c a ha).2,
    if_neg Bool.false_ne_true]
  split
  next => exact hb
  next => exact ha

theorem max_le (ha : IsDefined a → a ≤ c) (hb : IsDefined b → b ≤ c)
    (h : IsDefined a ∨ IsDefined b) : Scalar.max a b ≤ c := by
  unfold Scalar.max
  split
  next hnan => exact hb (h.resolve_left (isNaN_iff.mp hnan))
  next hnan =>
    split
    next hlt => exact hb ((RoundedScalar.lt_iff a b).mp hlt).2.1
    next => exact ha (not_not.mp (mt isNaN_iff.mpr hnan))

theorem max_le_or_le_right (ha : a ≤ c) : Scalar.max a b ≤ c ∨ Scalar.max a b ≤ b := by
  rw [Scalar.max, Scalar.isNaN_of_defined (RoundedScalar.defined_of_le a c ha).1,
    if_neg Bool.false_ne_true]
  split
  next hlt => exact .inr ((RoundedScalar.lt_iff a b).mp hlt).2.1
  next => exact .inl ha

theorem max_nonneg (ha : ¬a < 0) (h : IsDefined a ∨ ¬b < 0) : ¬Scalar.max a b < 0 := by
  cases hnan : Scalar.isNaN a with
  | true =>
    rw [Scalar.max, if_pos hnan]
    exact h.resolve_left (isNaN_iff.mp hnan)
  | false =>
    have hdefined := RoundedScalar.defined_of_isNaN a hnan
    exact RoundedScalar.not_neg_of_not_lt hdefined ha
      (RoundedScalar.not_lt_of_le (Scalar.le_max_left hdefined))

end Scalar

end Autodiff
