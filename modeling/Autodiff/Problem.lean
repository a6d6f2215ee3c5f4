import Autodiff.Graph

namespace Autodiff

/-- Why an optimisation gave no result. -/
inductive MinimizationError (α : Type) where
  | dimensionMismatch (expected found : Nat)
  | noIterates
  | term (cause : Failure α)
  deriving DecidableEq, Repr

def MinimizationError.ofFault {α : Type} (cause : Fault) : MinimizationError α := .term (.fault cause)

def MinimizationError.message : MinimizationError Float → String
  | .dimensionMismatch expected found => s!"expected dimension {expected}, found {found}"
  | .noIterates => "solver produced no iterates"
  | .term cause => cause.message

/-- Minimise an objective over variables, from a start point, with every constraint zero. -/
structure Problem (α : Type) where
  graph : Graph α
  objective : Expr
  constraints : List Expr
  vars : List Var
  /-- One value per variable. -/
  start : List α

namespace Problem

variable {α : Type}

def checkNode (g : Graph α) (e : Expr) : Except (MinimizationError α) Unit :=
  match g.node e with
  | .ok _ => .ok ()
  | .error e => .error (.term e)

/-- Assembles a problem whose start point has one value per variable and whose handles all
belong to the graph. -/
def ofParts (g : Graph α) (objective : Expr) (constraints : List Expr) (vars : List Var)
    (start : List α) : Except (MinimizationError α) (Problem α) :=
  if start.length ≠ vars.length then .error (.dimensionMismatch vars.length start.length)
  else do
    checkNode g objective
    constraints.forM (checkNode g)
    (vars.map Var.expr).forM (checkNode g)
    return ⟨g, objective, constraints, vars, start⟩

/-- The same problem from another start point. -/
def restarted (p : Problem α) (start : List α) : Except (MinimizationError α) (Problem α) :=
  if start.length ≠ p.vars.length then
    .error (.dimensionMismatch p.vars.length start.length)
  else .ok { p with start }

end Problem

end Autodiff
