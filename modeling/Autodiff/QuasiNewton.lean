import Autodiff.LineSearch
import Autodiff.Problem

namespace Autodiff

/-- A step `s`, the change `y` of the gradient over it, and the reciprocal of their product. -/
structure CurvaturePair (α : Type) where
  s : List α
  y : List α
  rho : α

variable {α : Type} [Scalar α]

/-- Applies the inverse Hessian estimated from curvature pairs, the newest first, to a vector.
Underneath all pairs the estimate is `scale`. -/
def applyPairs (scale : List α → List α) : List (CurvaturePair α) → List α → List α
  | [], q => scale q
  | pair :: older, q =>
    let a := pair.rho * dot pair.s q
    let r := applyPairs scale older (adjust (fun qj yj => qj - a * yj) q pair.y)
    let b := pair.rho * dot pair.y r
    adjust (fun rj sj => rj + (a - b) * sj) r pair.s

/-- The estimate before any pair is applied: a multiple of the identity, fitted to the newest
pair. -/
def initialScale : List (CurvaturePair α) → List α → List α
  | [], q => q
  | newest :: _, q =>
    let yy := dot newest.y newest.y
    if 0 < yy then
      let gamma := 1 / (newest.rho * yy)
      q.map (· * gamma)
    else q

/-- The negative of the estimated inverse Hessian times the gradient. -/
def searchDirection (gradient : List α) (pairs : List (CurvaturePair α)) : List α :=
  (applyPairs (initialScale pairs) pairs gradient).map (- ·)

/-- Keeps a new pair, and of the older ones as many as fit. A pair without positive curvature
is passed over. -/
def rememberPair (memory : Nat) (s y : List α) (pairs : List (CurvaturePair α)) :
    List (CurvaturePair α) :=
  let sy := dot s y
  if 0 < memory ∧ 0 < sy then (⟨s, y, 1 / sy⟩ :: pairs).take memory else pairs

/-- The outcome of an unconstrained minimisation. -/
structure Minimum (α : Type) where
  x : List α
  value : α
  gradient : List α
  gradientNorm : α
  iterations : Nat
  evaluations : Nat
  termination : Termination
  deriving DecidableEq

/-- Where a minimisation stands. -/
structure Descent (α : Type) where
  x : List α
  reply : Reply α
  gradientNorm : α
  /-- Newest first. -/
  pairs : List (CurvaturePair α)
  evaluations : Nat

namespace Descent

def finish (s : Descent α) (iterations : Nat) (termination : Termination) : Minimum α :=
  ⟨s.x, s.reply.value, s.reply.gradient, s.gradientNorm, iterations, s.evaluations, termination⟩

/-- Without curvature pairs the direction is the plain gradient, and the first step is scaled
to move about one unit at most. -/
def firstStep (s : Descent α) : α :=
  if s.pairs.isEmpty then Scalar.min (1 / s.gradientNorm) 1 else 1

/-- Moves on by an accepted step along `d`; also gives the length of the step. Every coordinate
of the point needs an entry in `d` and in the new gradient. -/
def advance (memory : Nat) (s : Descent α) (d : List α) (accepted : AcceptedStep α) :
    Except Fault (Descent α × α) :=
  let n := s.x.length
  let entries := min d.length accepted.gradient.length
  if entries < n then .error (.indexOutOfRange entries entries)
  else
    let step := (d.take n).map (accepted.step * ·)
    let change := (List.zipWith (· - ·) accepted.gradient s.reply.gradient).take n
    .ok
      ({ x := List.zipWith (· + ·) s.x step
         reply := ⟨accepted.value, accepted.gradient⟩
         gradientNorm := norm accepted.gradient
         pairs := rememberPair memory step change s.pairs
         evaluations := s.evaluations + accepted.evaluations },
       norm step)

end Descent

/-- The limited-memory BFGS method with its settings. -/
structure Lbfgs (α : Type) where
  /-- How many curvature pairs are kept. -/
  memory : Nat
  stopping : StoppingRule α
  lineSearch : WolfeSettings α

/-- How many curvature pairs can be reserved at once: a pair takes 56 bytes, and what is reserved
stays below `2 ^ 63` bytes. -/
def reservablePairs : Nat := 0x7fffffffffffffff / 56

namespace Lbfgs

/-- Room for all curvature pairs that are kept can be reserved. That a machine may still run out of
memory is left out. -/
abbrev Reservable (m : Lbfgs α) : Prop := m.memory ≤ reservablePairs

def double : Lbfgs Float := ⟨30, .double, .double⟩

def single : Lbfgs Float32 := ⟨30, .single, .single⟩

/-- The same method with another gradient tolerance. -/
def withGradientTolerance (m : Lbfgs α) (tolerance : α) : Lbfgs α :=
  { m with stopping := { m.stopping with gradientTolerance := tolerance } }

/-- Iterates until a tolerance is met or the rounds are used up. A line search that fails with
curvature pairs in use only clears them; without any it ends the run. -/
def iterate (m : Lbfgs α) : Nat → Nat → Descent α → Dialogue α (Except Fault (Minimum α))
  | 0, iterations, s => return .ok (s.finish iterations .maxIterations)
  | rounds + 1, iterations, s => do
    let d := searchDirection s.reply.gradient s.pairs
    match ← strongWolfeStep s.x d s.reply s.firstStep m.lineSearch with
    | none =>
      if s.pairs.isEmpty then return .ok (s.finish iterations .lineSearchFailed)
      else m.iterate rounds (iterations + 1) { s with pairs := [] }
    | some accepted =>
      match s.advance m.memory d accepted with
      | .error cause => return .error cause
      | .ok (next, stepNorm) =>
        match m.stopping.check next.gradientNorm stepNorm s.reply.value next.reply.value with
        | some termination => return .ok (next.finish (iterations + 1) termination)
        | none => m.iterate rounds (iterations + 1) next

/-- Minimises an objective from a start point. Running out of rounds or failing in a line search
is reported in the result, whose point is the last one accepted. The room for the curvature pairs is
reserved before the first round. A run breaks if that is impossible, or over a gradient that is
shorter than the start point. -/
def minimize (m : Lbfgs α) (start : List α) : Dialogue α (Except Fault (Minimum α)) := do
  let reply ← Dialogue.evaluate start
  let s : Descent α := ⟨start, reply, norm reply.gradient, [], 1⟩
  if !Scalar.isFinite reply.value || !Scalar.isFinite s.gradientNorm then
    return .ok (s.finish 0 .numericalError)
  else if s.gradientNorm < m.stopping.gradientTolerance then
    return .ok (s.finish 0 .gradientNorm)
  else if m.Reservable then m.iterate m.stopping.maxIterations 0 s
  else return .error .capacityOverflow

/-- Minimises over a given number of variables, and checks the length of the start point and of
every gradient. -/
def minimizeChecked (m : Lbfgs α) (dimension : Nat) (start : List α) :
    Dialogue α (Except (MinimizationError α) (Minimum α)) :=
  if start.length ≠ dimension then
    return .error (.dimensionMismatch dimension start.length)
  else do
    match ← (m.minimize start).checkLengths dimension none with
    | (.error cause, _) => return .error (.ofFault cause)
    | (.ok _, some found) => return .error (.dimensionMismatch dimension found)
    | (.ok result, none) => return .ok result

end Lbfgs

end Autodiff
