import Autodiff.Points

namespace Autodiff

/-- Why an unconstrained minimisation stopped. -/
inductive Termination where
  | gradientNorm
  | stepSize
  | functionChange
  | maxIterations
  | lineSearchFailed
  | numericalError
  deriving DecidableEq, Repr

namespace Termination

def text : Termination → String
  | .gradientNorm => "gradient norm below tolerance"
  | .stepSize => "step size below tolerance"
  | .functionChange => "function change below tolerance"
  | .maxIterations => "maximum iterations reached"
  | .lineSearchFailed => "line search failed"
  | .numericalError => "non-finite objective at start point"

/-- Whether a tolerance was met. -/
def converged : Termination → Bool
  | .gradientNorm | .stepSize | .functionChange => true
  | .maxIterations | .lineSearchFailed | .numericalError => false

end Termination

/-- The rounds that a minimisation may take, and the tolerances that end it earlier. -/
structure StoppingRule (α : Type) where
  maxIterations : Nat
  gradientTolerance : α
  stepTolerance : α
  /-- Zero turns this test off. -/
  functionTolerance : α

namespace StoppingRule

def double : StoppingRule Float := ⟨1000, 1e-8, 1e-14, 0⟩

def single : StoppingRule Float32 := ⟨1000, 1e-5, 1e-7, 0⟩

variable {α : Type} [Scalar α]

/-- The tolerance met after an accepted step: the gradient is tested first, then the step, then
the change of the value. -/
def check (r : StoppingRule α) (gradientNorm stepNorm previous value : α) : Option Termination :=
  if gradientNorm < r.gradientTolerance then some .gradientNorm
  else if stepNorm < r.stepTolerance then some .stepSize
  else if 0 < r.functionTolerance ∧ Scalar.abs (previous - value) < r.functionTolerance then
    some .functionChange
  else none

end StoppingRule

end Autodiff
