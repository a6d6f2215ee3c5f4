import Autodiff.TapeEvaluation

namespace Autodiff

/-- What an objective says about a point. A point outside its domain is reported by a value that
is not finite. -/
structure Reply (α : Type) where
  value : α
  gradient : List α
  deriving DecidableEq

/-- One evaluation of an objective. -/
structure Call (α : Type) where
  point : List α
  reply : Reply α
  deriving DecidableEq

/-- A computation that asks for the value and gradient of an objective at points of its choice,
finitely often whatever the replies are, and then has an answer. -/
inductive Dialogue (α β : Type) where
  | answer (result : β)
  | ask (point : List α) (next : Reply α → Dialogue α β)

namespace Dialogue

variable {α β γ σ : Type}

def bind : Dialogue α β → (β → Dialogue α γ) → Dialogue α γ
  | .answer result, f => f result
  | .ask point next, f => .ask point fun reply => (next reply).bind f

instance : Monad (Dialogue α) where
  pure := .answer
  bind := Dialogue.bind

/-- Asks about one point. -/
def evaluate (point : List α) : Dialogue α (Reply α) := .ask point .answer

/-- Carries on a dialogue with an objective whose replies may depend on what it was asked
before. The calls made are put in front of the earlier ones, the newest first. -/
def run (objective : σ → List α → Reply α × σ) : Dialogue α β → σ → List (Call α) →
    β × List (Call α)
  | .answer result, _, calls => (result, calls)
  | .ask point next, state, calls =>
    let (reply, state) := objective state point
    (next reply).run objective state (⟨point, reply⟩ :: calls)

/-- Carries on a dialogue with an objective that is a function of the point. -/
def runWith (objective : List α → Reply α) : Dialogue α β → β
  | .answer result => result
  | .ask point next => (next (objective point)).runWith objective

end Dialogue

namespace Reply

variable {α : Type} [Scalar α]

/-- The reply for a point outside the domain. -/
def undefined (dimension : Nat) : Reply α :=
  ⟨Scalar.nan, List.replicate dimension Scalar.nan⟩

def map {β : Type} (f : α → β) (r : Reply α) : Reply β := ⟨f r.value, r.gradient.map f⟩

/-- The value and gradient that a term had at a point of the given dimension. A domain error is
no failure of the objective: it only makes the point unusable. -/
def ofTerm (dimension : Nat) : Except (Failure α) (α × List α) → Reply α
  | .ok (value, gradient) => ⟨value, gradient⟩
  | .error _ => undefined dimension

end Reply

/-- Replaces replies with a gradient of the wrong length by undefined ones. The answer comes with
the first wrong length. -/
def Dialogue.checkLengths {α β : Type} [Scalar α] (dimension : Nat) :
    Dialogue α β → Option Nat → Dialogue α (β × Option Nat)
  | .answer result, wrong => .answer (result, wrong)
  | .ask point next, wrong => .ask point fun reply =>
    if reply.gradient.length = dimension then (next reply).checkLengths dimension wrong
    else
      (next (.undefined dimension)).checkLengths dimension
        (wrong.or (some reply.gradient.length))

/-- A compiled term with fixed parameters as an objective. -/
def Tape.reply {α : Type} [Scalar α] (t : Tape α) (params point : List α) : Reply α :=
  .ofTerm point.length (t.evaluateParametric point params)

/-- An expression of a graph as an objective. -/
def Graph.reply {α : Type} [Scalar α] (g : Graph α) (root : Expr) (vars : List Var)
    (point : List α) : Reply α :=
  .ofTerm point.length (g.valueAndGradient root vars point)

end Autodiff
