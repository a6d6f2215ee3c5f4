import Autodiff.PenaltyMethod

namespace Autodiff

/-- Settings of the augmented Lagrangian method. -/
structure MultiplierMethod (α : Type) where
  initialPenalty : α
  maxPenalty : α
  /-- Factor on the penalty weight when the constraint violation does not fall enough. -/
  penaltyGrowth : α
  constraintTolerance : α
  lagrangianGradientTolerance : α
  /-- Floor of the gradient tolerance of the subproblems. -/
  minInnerTolerance : α
  /-- Floor of the violation that leaves the penalty weight alone. -/
  minViolationTarget : α
  maxOuterIterations : Nat
  /-- Its own gradient tolerance is not used. -/
  lbfgs : Lbfgs α

/-- Where the outer loop stands before a subproblem. -/
structure OuterState (α : Type) where
  x : List α
  multipliers : List α
  penalty : α
  violationTarget : α
  innerTolerance : α
  iteration : Nat

namespace MultiplierMethod

def standard : MultiplierMethod Float where
  initialPenalty := 10
  maxPenalty := 1e3
  penaltyGrowth := 100
  constraintTolerance := 1e-8
  lagrangianGradientTolerance := 2e-6
  minInnerTolerance := 4e-7
  minViolationTarget := 1e-8
  maxOuterIterations := 1000
  lbfgs := .double

variable {α : Type} [Scalar α]

/-- The state before the first subproblem. -/
def initial (m : MultiplierMethod α) (start multipliers : List α) : OuterState α where
  x := start
  multipliers := multipliers
  penalty := m.initialPenalty
  violationTarget :=
    Scalar.max (Scalar.pow m.initialPenalty (Scalar.ratio (-1) 10)) m.minViolationTarget
  innerTolerance := Scalar.max (1 / m.initialPenalty) m.minInnerTolerance
  iteration := 0

/-- Minimises the Lagrangian in force, from the point reached so far. -/
def subproblem (m : MultiplierMethod α) (l : Lagrangian α) (s : OuterState α) :
    Except Fault (Minimum α) :=
  ((m.lbfgs.withGradientTolerance s.innerTolerance).minimize s.x).runWith
    (l.reply s.multipliers s.penalty)

/-- The multipliers after a subproblem: each grows by the penalty weight times its constraint. -/
def updateMultipliers (penalty : α) (multipliers constraints : List α) : List α :=
  List.zipWith (fun m c => m + penalty * c) multipliers constraints

/-- Penalty weight and tolerances after a subproblem. The weight grows when the violation missed
its target, which restarts from the new weight; otherwise the target is tightened. -/
def updatePenalty (m : MultiplierMethod α) (s : OuterState α) (constraintNorm : α) :
    OuterState α :=
  let missed := decide (s.violationTarget < constraintNorm)
  let penalty := if missed then Scalar.min (s.penalty * m.penaltyGrowth) m.maxPenalty else s.penalty
  let target :=
    if missed then Scalar.pow penalty (Scalar.ratio (-1) 10)
    else s.violationTarget / Scalar.pow penalty (Scalar.ratio 9 10)
  { s with
    penalty
    violationTarget := Scalar.max target m.minViolationTarget
    innerTolerance := Scalar.max (s.innerTolerance / penalty) m.minInnerTolerance
    iteration := s.iteration + 1 }

/-- The iterate after one subproblem, and the state before the next one. With no rounds `left`
after this one the sequence has reached its cap. -/
def step (m : MultiplierMethod α) (l : Lagrangian α) (left : Nat) (s : OuterState α) :
    Except (Failure α) (Iterate α × OuterState α) := do
  let result ← (m.subproblem l s).mapError .fault
  let (value, constraints) ← l.measure result.x
  let multipliers := updateMultipliers s.penalty s.multipliers constraints
  let constraintNorm := norm constraints
  let converged := constraintNorm ≤ m.constraintTolerance ∧
    result.gradientNorm ≤ m.lagrangianGradientTolerance
  let status : Status :=
    if converged then .converged else if left = 0 then .maxIterations else .inProgress
  let iterate : Iterate α := {
    x := result.x
    value
    constraintNorm
    lagrangianGradientNorm := result.gradientNorm
    multipliers
    penalty := s.penalty
    iteration := s.iteration
    status }
  return (iterate, m.updatePenalty { s with x := result.x, multipliers } constraintNorm)

/-- How the sequence ends where a subproblem gives no iterate: a point at which objective and
constraints cannot be measured is the end of it. -/
def ending : Failure α → Iterates α
  | .refused _ => .done
  | .fault cause => .broken cause

/-- The sequence from a state on, of at most `left + 1` iterates. -/
def iterates (m : MultiplierMethod α) (l : Lagrangian α) : Nat → OuterState α → Iterates α
  | 0, s =>
    match m.step l 0 s with
    | .error cause => ending cause
    | .ok (iterate, _) => .yield iterate fun _ => .done
  | left + 1, s =>
    match m.step l (left + 1) s with
    | .error cause => ending cause
    | .ok (iterate, next) => .yield iterate fun _ =>
      if iterate.status = .inProgress then iterates m l left next else .done

/-- Minimises `f + Σ λᵢ cᵢ + (μ / 2) Σ cᵢ²` again and again, each time from the point before,
with multipliers and penalty weight updated in between. A start point outside the domain of the
objective or a constraint is turned away. -/
def solver (m : MultiplierMethod α) : Solver α :=
  ⟨fun p => {
    outcome := do
      let l ← Lagrangian.ofProblem p
      let multipliers : List α := List.replicate l.constraints.length 0
      let _ ← (l.evaluate p.start multipliers m.initialPenalty).mapError .term
      return m.iterates l (m.maxOuterIterations - 1) (m.initial p.start multipliers) }⟩

end MultiplierMethod

end Autodiff
