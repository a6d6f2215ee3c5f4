import Autodiff.Iterates
import Autodiff.Lagrangian
import Autodiff.QuasiNewton

namespace Autodiff

/-- Settings of the quadratic penalty method with a fixed weight. -/
structure PenaltyMethod (α : Type) where
  penalty : α
  gradientTolerance : α
  /-- Its own gradient tolerance is not used. -/
  lbfgs : Lbfgs α

namespace PenaltyMethod

def standard : PenaltyMethod Float := ⟨1e3, 1e-6, .double⟩

variable {α : Type} [Scalar α]

/-- How the outcome of the only subproblem is reported. -/
def status (termination : Termination) : Status :=
  if termination.converged then .converged
  else if termination = .maxIterations then .maxIterations
  else .stalled

/-- Minimises `f + μ Σ cᵢ²` once. That is the augmented Lagrangian with zero multipliers and
weight `2 μ`, so that the multipliers reported are `2 μ cᵢ`. -/
def run (m : PenaltyMethod α) (l : Lagrangian α) (start : List α) :
    Except (MinimizationError α) (Iterate α) := do
  let weight := Scalar.two * m.penalty
  let zeros : List α := List.replicate l.constraints.length 0
  let _ ← (l.evaluate start zeros weight).mapError .term
  let config := m.lbfgs.withGradientTolerance m.gradientTolerance
  let result ← ((config.minimize start).runWith (l.reply zeros weight)).mapError .ofFault
  let (value, constraints) ← (l.measure result.x).mapError .term
  return {
    x := result.x
    value
    constraintNorm := norm constraints
    lagrangianGradientNorm := result.gradientNorm
    multipliers := constraints.map (weight * ·)
    penalty := m.penalty
    iteration := 0
    status := status result.termination }

def solver (m : PenaltyMethod α) : Solver α :=
  ⟨fun p => {
    outcome := do
      let l ← Lagrangian.ofProblem p
      let iterate ← m.run l p.start
      return .ofList [iterate] }⟩

end PenaltyMethod

end Autodiff
