import Mathlib.Analysis.SpecialFunctions.Pow.Real
import Autodiff.Proofs.Adjoints

namespace Autodiff

/-- Exact arithmetic: the operations of a field and an equality test that decides equality. The
elementary functions and the order may be anything. -/
class ExactScalar (α : Type) extends Field α, Scalar α where
  beq_iff (a b : α) : (a == b) = true ↔ a = b

instance ExactScalar.sumsFromZero {α : Type} [ExactScalar α] : SumsFromZero α :=
  .of_zero_add zero_add fun a h => (ExactScalar.beq_iff a 0).mp h

noncomputable instance : ExactScalar ℝ where
  decLt := Classical.decRel _
  decLe := Classical.decRel _
  beq a b := @decide (a = b) (Classical.propDecidable _)
  exp := Real.exp
  log := Real.log
  sqrt := Real.sqrt
  pow a b := a ^ b
  isFinite _ := true
  isInteger a := @decide (∃ n : ℤ, a = n) (Classical.propDecidable _)
  epsilon := 0
  nan := 0
  beq_iff a b := by simp

/-- Rational arithmetic, in which examples can be evaluated. Square roots are exact for squares only,
and exponentials and logarithms stand for nothing. -/
instance : ExactScalar ℚ where
  decLt := inferInstance
  decLe := inferInstance
  exp _ := 1
  log _ := 0
  sqrt a := mkRat (Int.sqrt a.num) (Nat.sqrt a.den)
  pow a b := a ^ b.num
  isFinite _ := true
  isInteger a := a.den == 1
  epsilon := 0
  nan := 0
  beq_iff a b := by simp

end Autodiff
