import Autodiff.MultiplierMethod

namespace Autodiff

/-- A solver that, when traced, records each problem before solving it. -/
structure Minimizer (α : Type) where
  inner : Solver α
  traced : Bool := false

namespace Minimizer

def standard : Minimizer Float := { inner := MultiplierMethod.standard.solver }

variable {α : Type}

def describe (m : Minimizer α) : String :=
  "Minimizer \x7b traced: " ++ (if m.traced then "true" else "false") ++ ", .. \x7d"

def solver (m : Minimizer α) : Solver α :=
  ⟨fun p =>
    let started := m.inner.start p
    if m.traced then { started with recorded := p :: started.recorded } else started⟩

end Minimizer

/-- Minimises with the standard augmented Lagrangian method. -/
def minimize (p : Problem Float) : Except (MinimizationError Float) (Iterate Float) :=
  (MultiplierMethod.standard.solver.minimize p).1

end Autodiff
