import Autodiff.Iterates

namespace Autodiff

/-- Solvers that run one after another, each from the point where the one before it stopped. -/
structure Multistage (α : Type) where
  first : Solver α
  rest : List (Solver α) := []

namespace Multistage

variable {α : Type}

/-- Appends a stage. -/
def andThen (m : Multistage α) (next : Solver α) : Multistage α :=
  { m with rest := m.rest ++ [next] }

/-- Number of stages. -/
def stages (m : Multistage α) : Nat := 1 + m.rest.length

def describe (m : Multistage α) : String :=
  "Multistage \x7b stages: " ++ toString m.stages ++ " \x7d"

/-- Numbers the iterates of a sequence from `k` on. -/
def renumber : Iterates α → Nat → Iterates α
  | .done, _ => .done
  | .broken cause, _ => .broken cause
  | .yield it rest, k => .yield { it with iteration := k } fun _ => renumber (rest ()) (k + 1)
  | .record problem rest, k => .record problem fun _ => renumber (rest ()) k

/-- What comes of launching a stage. -/
structure Launch (α : Type) where
  recorded : List (Problem α) := []
  /-- Nothing when the stage cannot start. -/
  iterates : Except Fault (Option (Iterates α))

/-- Starts a stage on a problem moved to `x`. -/
def launch (p : Problem α) (stage : Solver α) (x : List α) : Launch α :=
  match p.restarted x with
  | .error _ => { iterates := .ok none }
  | .ok p =>
    let started := stage.start p
    { recorded := started.recorded
      iterates := match started.outcome with
        | .ok its => .ok (some its)
        | .error (.term (.fault cause)) => .error cause
        | .error _ => .ok none }

/-- Follows one stage, numbering iterates from `k` on, until `next` can be launched. That is tried
as soon as a final iterate turns up, which counts as final only if it fails, and otherwise at the
end of the stage, from the last point `last` or else from `start`. After a failed launch nothing
more is launched, and a launch that breaks a promise breaks the sequence. -/
def follow (start : List α) (next : List α → Launch α)
    (continued : Iterates α → Nat → Iterates α) :
    Iterates α → Option (List α) → Nat → Iterates α
  | .done, last, k =>
    let launched := next (last.getD start)
    .recordAll launched.recorded <|
      match launched.iterates with
      | .error cause => .broken cause
      | .ok (some its) => continued its k
      | .ok none => .done
  | .broken cause, _, _ => .broken cause
  | .yield it rest, _, k =>
    if it.status = .inProgress then
      .yield { it with iteration := k } fun _ =>
        follow start next continued (rest ()) (some it.x) (k + 1)
    else
      let launched := next it.x
      .recordAll launched.recorded <|
        match launched.iterates with
        | .error cause => .broken cause
        | .ok (some its) =>
          .yield { it with iteration := k, status := .inProgress } fun _ => continued its (k + 1)
        | .ok none => .yield { it with iteration := k } fun _ => renumber (rest ()) (k + 1)
  | .record problem rest, last, k =>
    .record problem fun _ => follow start next continued (rest ()) last k

/-- The sequence of the current stage and of the stages to come. -/
def sequence (p : Problem α) : List (Solver α) → Iterates α → Option (List α) → Nat → Iterates α
  | [], its, _, k => renumber its k
  | stage :: rest, its, last, k =>
    follow p.start (launch p stage) (fun its k => sequence p rest its none k) its last k

def solver (m : Multistage α) : Solver α :=
  ⟨fun p =>
    let started := m.first.start p
    { started with outcome := started.outcome.map fun its => sequence p m.rest its none 0 }⟩

end Multistage

end Autodiff
