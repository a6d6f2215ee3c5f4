import Autodiff.Dialogue

namespace Autodiff

/-- Where the replies of a rehearsed objective come from: a function of the point, or a list of
prepared replies of which the last one repeats. -/
inductive ReplySource (α : Type) where
  | function (f : List α → Reply α)
  | script (replies : List (Reply α))

/-- How replies are spoiled, to rehearse what an optimiser does with them. Calls count from
one. -/
structure Spoiling where
  negateGradient : Bool := false
  /-- The first and the last call of a stretch that is answered with an undefined reply. -/
  blackout : Option (Nat × Nat) := none
  /-- The call from which on gradients have a given length, cut or filled up with zeros. -/
  gradientLength : Option (Nat × Nat) := none

/-- A rehearsed objective between two calls. -/
structure Rehearsal (α : Type) where
  source : ReplySource α
  spoiling : Spoiling := {}
  calls : Nat := 0

variable {α : Type} [Scalar α]

def ReplySource.next (point : List α) : ReplySource α → Reply α × ReplySource α
  | .function f => (f point, .function f)
  | .script [] => (.undefined point.length, .script [])
  | .script [last] => (last, .script [last])
  | .script (reply :: rest) => (reply, .script rest)

def Spoiling.coversCall (s : Spoiling) (call : Nat) : Bool :=
  match s.blackout with
  | some (first, last) => first ≤ call && call ≤ last
  | none => false

def Spoiling.gradient (s : Spoiling) (call : Nat) (gradient : List α) : List α :=
  let signed := if s.negateGradient then gradient.map (- ·) else gradient
  match s.gradientLength with
  | some (first, length) =>
    if first ≤ call then (signed ++ List.replicate length 0).take length else signed
  | none => signed

/-- Answers the next call. A call in a blackout uses up no prepared reply. -/
def Rehearsal.next (r : Rehearsal α) (point : List α) : Reply α × Rehearsal α :=
  let call := r.calls + 1
  if r.spoiling.coversCall call then
    (.undefined point.length, { r with calls := call })
  else
    let (reply, source) := r.source.next point
    (⟨reply.value, r.spoiling.gradient call reply.gradient⟩, { r with source, calls := call })

end Autodiff
