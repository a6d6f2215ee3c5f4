import Autodiff.Dialogue
import Autodiff.Problem
import Autodiff.TermVector

namespace Autodiff

/-- The augmented Lagrangian of a constrained problem, laid out once for all multipliers and
penalty weights, together with the single constraints. -/
structure Lagrangian (α : Type) where
  /-- Its parameters are the penalty weight and then the multipliers. -/
  tape : Tape α
  constraints : List (Tape α)

namespace Lagrangian

variable {α : Type} [Scalar α]

/-- Builds `f + Σ λᵢ cᵢ + (μ / 2) Σ cᵢ²` with new variables for `μ` and every `λᵢ`. -/
def assemble (objective : Expr) (constraints : List Expr) : Build α (Expr × List Var) := do
  let penalty ← Build.newVar
  let multipliers ← Build.newVars constraints.length
  let c : TermVector := ⟨constraints⟩
  let weighted ← (TermVector.ofVars multipliers).dot c
  let squares ← c.normSquared
  let half ← Build.constant Scalar.half
  let halfPenalty ← Build.mul half penalty.expr
  let penaltyTerm ← Build.mul halfPenalty squares
  let root ← Build.sum [objective, weighted, penaltyTerm]
  return (root, penalty :: multipliers)

/-- Lays out the Lagrangian on a copy of the graph, which itself gains no nodes. -/
def ofGraph (g : Graph α) (objective : Expr) (constraints : List Expr) (vars : List Var) :
    Except (Failure α) (Lagrangian α) :=
  match (assemble objective constraints).run g with
  | .error e _ => .error e
  | .ok (root, parameters) extended => do
    let tape ← extended.compileParametric root vars parameters
    return ⟨tape, ← constraints.mapM fun c => g.compile c vars⟩

def dimension (l : Lagrangian α) : Nat := l.tape.inputs

/-- The parameters for given multipliers and penalty weight. -/
def params (multipliers : List α) (penalty : α) : List α := penalty :: multipliers

/-- Value and gradient at `x`. -/
def evaluate (l : Lagrangian α) (x multipliers : List α) (penalty : α) :
    Except (Failure α) (α × List α) :=
  l.tape.evaluateParametric x (params multipliers penalty)

/-- The Lagrangian with fixed multipliers and penalty weight as an objective. -/
def reply (l : Lagrangian α) (multipliers : List α) (penalty : α) (x : List α) : Reply α :=
  l.tape.reply (params multipliers penalty) x

/-- The objective value at `x`: the Lagrangian without multipliers and penalty. -/
def objectiveValue (l : Lagrangian α) (x : List α) : Except (Failure α) α :=
  l.tape.valueParametric x (List.replicate (1 + l.constraints.length) 0)

def constraintValues (l : Lagrangian α) (x : List α) : Except (Failure α) (List α) :=
  l.constraints.mapM fun c => c.value x

/-- Objective value and constraint values at `x`. -/
def measure (l : Lagrangian α) (x : List α) : Except (Failure α) (α × List α) := do
  return (← l.objectiveValue x, ← l.constraintValues x)

/-- The Lagrangian of a problem whose start point has one value per variable. -/
def ofProblem (p : Problem α) : Except (MinimizationError α) (Lagrangian α) := do
  let l ← (ofGraph p.graph p.objective p.constraints p.vars).mapError .term
  if p.start.length ≠ l.dimension then
    throw (.dimensionMismatch l.dimension p.start.length)
  else return l

end Lagrangian

end Autodiff
