import Autodiff.Problem

namespace Autodiff

/-- Where a solver's sequence stands after an iterate. All but the first are final. -/
inductive Status where
  | inProgress
  | converged
  | maxIterations
  | stalled
  deriving DecidableEq, Repr

/-- One point in a solver's sequence of improving solutions. -/
structure Iterate (α : Type) where
  x : List α
  value : α
  constraintNorm : α
  /-- Norm of the gradient of the Lagrangian at `x`, taken with `multipliers`. -/
  lagrangianGradientNorm : α
  /-- One per constraint. -/
  multipliers : List α
  /-- The penalty weight of the subproblem that produced `x`. -/
  penalty : α
  iteration : Nat
  status : Status
  deriving DecidableEq, Repr

/-- A finite sequence of iterates of which no more is worked out than is asked for. On the way to
an iterate, problems may be recorded. A sequence is broken where the next iterate cannot be worked
out because of a broken promise. -/
inductive Iterates (α : Type) where
  | done
  | broken (cause : Fault)
  | yield (iterate : Iterate α) (rest : Unit → Iterates α)
  | record (problem : Problem α) (rest : Unit → Iterates α)

namespace Iterates

variable {α : Type}

def ofList : List (Iterate α) → Iterates α
  | [] => .done
  | it :: rest => .yield it fun _ => ofList rest

/-- Every iterate of the sequence. -/
def toList : Iterates α → List (Iterate α)
  | .done | .broken _ => []
  | .yield it rest => it :: (rest ()).toList
  | .record _ rest => (rest ()).toList

/-- The first `n` iterates; nothing beyond them is worked out. -/
def take : Iterates α → Nat → Iterates α
  | .done, _ => .done
  | _, 0 => .done
  | .broken cause, _ + 1 => .broken cause
  | .yield it rest, n + 1 => .yield it fun _ => if n = 0 then .done else (rest ()).take n
  | .record problem rest, n + 1 => .record problem fun _ => (rest ()).take (n + 1)

/-- Records problems before a sequence goes on. -/
def recordAll : List (Problem α) → Iterates α → Iterates α
  | [], its => its
  | problem :: rest, its => .record problem fun _ => recordAll rest its

/-- Works out a sequence to its end: its iterates, and the problems recorded on the way. -/
def collect : Iterates α → Except Fault (List (Iterate α)) × List (Problem α)
  | .done => (.ok [], [])
  | .broken cause => (.error cause, [])
  | .yield it rest =>
    let (iterates, problems) := (rest ()).collect
    (iterates.map (it :: ·), problems)
  | .record problem rest =>
    let (iterates, problems) := (rest ()).collect
    (iterates, problem :: problems)

end Iterates

/-- What comes of starting a solver: the problems recorded at once, and the sequence of iterates
unless the problem cannot be solved from its start. -/
structure Start (α : Type) where
  recorded : List (Problem α) := []
  outcome : Except (MinimizationError α) (Iterates α)

/-- A way to solve constrained problems. -/
structure Solver (α : Type) where
  start : Problem α → Start α

namespace Solver

variable {α : Type}

/-- The first `limit` iterates, and every problem recorded. -/
def solve (s : Solver α) (p : Problem α) (limit : Nat) :
    Except (MinimizationError α) (List (Iterate α)) × List (Problem α) :=
  let started := s.start p
  match started.outcome with
  | .error e => (.error e, started.recorded)
  | .ok its =>
    let (iterates, problems) := (its.take limit).collect
    (iterates.mapError .ofFault, started.recorded ++ problems)

/-- The last iterate, and every problem recorded. -/
def minimize (s : Solver α) (p : Problem α) :
    Except (MinimizationError α) (Iterate α) × List (Problem α) :=
  let started := s.start p
  match started.outcome with
  | .error e => (.error e, started.recorded)
  | .ok its =>
    let (iterates, problems) := its.collect
    let last := match iterates with
      | .error cause => .error (.ofFault cause)
      | .ok iterates =>
        match iterates.getLast? with
        | some it => .ok it
        | none => .error .noIterates
    (last, started.recorded ++ problems)

/-- Yields given iterates, whatever the problem. -/
def ofIterates (iterates : List (Iterate α)) : Solver α :=
  ⟨fun _ => { outcome := .ok (.ofList iterates) }⟩

/-- Yields the first `n` iterates of another solver. -/
def take (n : Nat) (s : Solver α) : Solver α :=
  ⟨fun p =>
    let started := s.start p
    { started with outcome := started.outcome.map (·.take n) }⟩

/-- Never starts. -/
def refuse : Solver α := ⟨fun _ => { outcome := .error .noIterates }⟩

end Solver

end Autodiff
