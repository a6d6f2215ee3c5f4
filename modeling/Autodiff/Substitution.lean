import Autodiff.Binding
import Autodiff.Builder
import Autodiff.Reachability

namespace Autodiff

namespace Build

variable {α : Type} [Scalar α]

/-- An answer computed from the graph without changing it. -/
def ofExcept {β : Type} : Except (Failure α) β → Build α β
  | .ok x => pure x
  | .error e => throw e

/-- Builds a node again on the images of its operands. No answer means that nothing below the
node has changed, so that the node can stand for itself. -/
def rebuild (slots : Graph.Slots) (values : Array α) (image : Array Expr) (i : Nat) :
    Node α → Build α (Option Expr)
  | .constant _ => pure none
  | .variable _ => do
    match ← ofExcept (fetch slots i) with
    | some slot => return some (← constant (← ofExcept (fetch values slot)))
    | none => pure none
  | .unary op arg => do
    let a ← ofExcept (fetch image arg.index)
    if a = arg then pure none
    else
      match op with
      | .negate => return some (← neg a)
      | .exp => return some (← exp a)
      | .log => return some (← log a)
  | .binary op lhs rhs => do
    let a ← ofExcept (fetch image lhs.index)
    let b ← ofExcept (fetch image rhs.index)
    if a = lhs ∧ b = rhs then pure none
    else
      match op with
      | .add => return some (← add a b)
      | .multiply => return some (← mul a b)
  | .power base exponent => do
    let b ← ofExcept (fetch image base.index)
    if b = base then pure none else return some (← pow b exponent)
  | .sum terms => do
    let mapped ← terms.mapM fun t => ofExcept (fetch image t.index)
    if mapped = terms then pure none else return some (← sum mapped)

def substituteStep (slots : Graph.Slots) (values : Array α) (image : Array Expr) (i : Nat) :
    Build α (Array Expr) := do
  let node ← ofExcept (fetch (← get).nodes i)
  match ← rebuild slots values image i node with
  | some e => ofExcept (store image i e)
  | none => pure image

/-- Replaces the listed variables in an expression by constants. What no longer depends on a
free variable folds to one constant, what the replacement does not touch keeps its node, and
other variables stay free. -/
def substitute (root : Expr) (vars : List Var) (values : List α) : Build α Expr :=
  if vars.length ≠ values.length then
    throw (.refused (.lengthMismatch vars.length values.length))
  else do
    let g ← get
    let order ← ofExcept (g.reachable root)
    let slots ← ofExcept (g.bind vars g.unbound 0)
    let unchanged := ((List.range (root.index + 1)).map Expr.mk).toArray
    let image ← order.foldlM (substituteStep slots values.toArray) unchanged
    ofExcept (fetch image root.index)

end Build

end Autodiff
