import Autodiff.Proofs.Certificates
import Autodiff.Proofs.Rebuilding
import Autodiff.Proofs.StoppedBuilding

namespace Autodiff

variable {α β γ : Type} [Scalar α]

/-- Why a solver may refuse a problem. -/
def solvingReasons : List Refusal := compileReasons ++ domainReasons

/-- Solving has a result, is refused for one of these reasons, or breaks by one of some faults. -/
def SafelySolved (breaks : Fault → Prop) : Except (MinimizationError α) β → Prop
  | .ok _ => True
  | .error (.term (.refused e)) => e.refusal ∈ solvingReasons
  | .error (.term (.fault cause)) => breaks cause
  | .error _ => False

variable {breaks : Fault → Prop} {kind : Lbfgs α → Prop}

omit [Scalar α] in
theorem SafelySolved.failure {cause : MinimizationError α}
    (h : SafelySolved breaks (.error cause : Except (MinimizationError α) β)) :
    SafelySolved breaks (.error cause : Except (MinimizationError α) γ) := by
  match cause, h with
  | .term (.refused _), h => exact h
  | .term (.fault _), h => exact h

omit [Scalar α] in
theorem SafelySolved.bind {r : Except (MinimizationError α) β}
    {f : β → Except (MinimizationError α) γ} (h : SafelySolved breaks r)
    (hf : ∀ x, r = .ok x → SafelySolved breaks (f x)) : SafelySolved breaks (r >>= f) := by
  cases r with
  | ok x => exact hf x rfl
  | error cause => exact h.failure

namespace Lagrangian

end Lagrangian

end Autodiff
