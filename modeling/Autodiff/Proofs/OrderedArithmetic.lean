import Autodiff.Proofs.ExactBuilding

namespace Autodiff

/-- Exact arithmetic in an ordered field. -/
class OrderedScalar (α : Type) extends ExactScalar α, LinearOrder α, IsStrictOrderedRing α

noncomputable instance : OrderedScalar ℝ where
  __ := (inferInstance : ExactScalar ℝ)
  __ := (inferInstance : LinearOrder ℝ)
  __ := (inferInstance : IsStrictOrderedRing ℝ)

instance : OrderedScalar ℚ where
  __ := (inferInstance : ExactScalar ℚ)
  __ := (inferInstance : LinearOrder ℚ)
  __ := (inferInstance : IsStrictOrderedRing ℚ)

/-- Exact arithmetic in which the powers with exponents zero and one are what they should be, and in
which one is a whole number. -/
class UnitPowers (α : Type) [ExactScalar α] : Prop where
  pow_zero (a : α) : Scalar.pow a 0 = 1
  pow_one (a : α) : Scalar.pow a 1 = a
  isInteger_one : Scalar.isInteger (1 : α) = true

instance : UnitPowers ℝ where
  pow_zero a := Real.rpow_zero a
  pow_one a := Real.rpow_one a
  isInteger_one := @decide_eq_true _ (Classical.propDecidable _) ⟨1, Int.cast_one.symm⟩

instance : UnitPowers ℚ where
  pow_zero a := zpow_zero a
  pow_one a := zpow_one a
  isInteger_one := rfl

end Autodiff
