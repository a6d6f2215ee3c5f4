import Autodiff.Binding
import Autodiff.Reachability

namespace Autodiff

variable {α : Type} [Scalar α]

/-- Adds to one entry of an array, which has to exist. -/
def accumulate (xs : Array α) (i : Nat) (x : α) : Except (Failure α) (Array α) := do
  let old ← fetch xs i
  store xs i (old + x)

/-- Adds a list of amounts, each to its entry, in order. -/
def accumulateAll (xs : Array α) (shares : List (Nat × α)) : Except (Failure α) (Array α) :=
  shares.foldlM (fun xs s => accumulate xs s.1 s.2) xs

/-- The value of one node, given the point and the values of earlier nodes. -/
def Node.value (slots : Graph.Slots) (point values : Array α) (i : Nat) :
    Node α → Except (Failure α) α
  | .constant value => .ok value
  | .variable id => do
    match ← fetch slots i with
    | some slot => fetch point slot
    | none => throw (.refused (.unboundVariable id))
  | .unary op arg => do
    let a ← fetch values arg.index
    (op.value a).mapError .refused
  | .binary op lhs rhs => do
    let a ← fetch values lhs.index
    let b ← fetch values rhs.index
    return op.value a b
  | .power base exponent => do
    let a ← fetch values base.index
    (powerValue a exponent).mapError .refused
  | .sum terms => return Scalar.total (← terms.mapM fun t => fetch values t.index)

/-- What each operand of a node gains when the node, of value `r`, has the given adjoint. -/
def Node.shares (values : Array α) (r adjoint : α) :
    Node α → Except (Failure α) (List (Nat × α))
  | .constant _ | .variable _ => .ok []
  | .unary op arg => do
    let a ← fetch values arg.index
    return [(arg.index, op.slope a r * adjoint)]
  | .binary op lhs rhs => do
    let a ← fetch values lhs.index
    let b ← fetch values rhs.index
    let slopes := op.slopes a b
    return [(lhs.index, slopes.1 * adjoint), (rhs.index, slopes.2 * adjoint)]
  | .power base exponent => do
    let a ← fetch values base.index
    return [(base.index, powerSlope a exponent * adjoint)]
  | .sum terms => .ok (terms.map fun t => (t.index, adjoint))

/-- The values of every node that one root depends on. -/
structure Sweep (α : Type) where
  root : Expr
  /-- The nodes below the root, ascending. -/
  order : List Nat
  slots : Graph.Slots
  /-- Up to the root; entries of nodes outside `order` stay zero. -/
  values : Array α

namespace Sweep

def forwardStep (g : Graph α) (slots : Graph.Slots) (point : Array α) (values : Array α)
    (i : Nat) : Except (Failure α) (Array α) := do
  let node ← fetch g.nodes i
  let value ← node.value slots point values i
  store values i value

/-- Binds the point to the variables and evaluates every node below the root. -/
def forward (g : Graph α) (root : Expr) (vars : List Var) (point : List α) :
    Except (Failure α) (Sweep α) :=
  if vars.length ≠ point.length then
    .error (.refused (.lengthMismatch vars.length point.length))
  else do
    let order ← g.reachable root
    let slots ← g.bind vars g.unbound 0
    let zeros := Array.replicate (root.index + 1) 0
    let values ← order.foldlM (forwardStep g slots point.toArray) zeros
    return ⟨root, order, slots, values⟩

def value (s : Sweep α) : Except (Failure α) α := fetch s.values s.root.index

/-- The gradient gathered so far, one entry per bound variable, and the adjoint of every node. -/
structure Adjoints (α : Type) where
  gradient : Array α
  nodes : Array α

/-- Passes the adjoint of one node on to its operands, or to the gradient when the node is a
variable. A zero adjoint passes nothing on. -/
def reverseStep (g : Graph α) (s : Sweep α) (adjoints : Adjoints α) (i : Nat) :
    Except (Failure α) (Adjoints α) := do
  let adjoint ← fetch adjoints.nodes i
  if adjoint == 0 then return adjoints
  else do
    match ← fetch g.nodes i with
    | .variable _ =>
      match ← fetch s.slots i with
      | some slot =>
        return { adjoints with gradient := ← accumulate adjoints.gradient slot adjoint }
      | none => throw (.fault (.noSlot i))
    | node =>
      let shares ← node.shares s.values (← fetch s.values i) adjoint
      return { adjoints with nodes := ← accumulateAll adjoints.nodes shares }

/-- The partial derivatives of the root, one per bound variable. A variable that the root does
not depend on gets zero. -/
def gradient (g : Graph α) (s : Sweep α) (count : Nat) : Except (Failure α) (List α) := do
  let nodes ← store (Array.replicate s.values.size 0) s.root.index 1
  let adjoints ← s.order.reverse.foldlM (reverseStep g s) ⟨Array.replicate count 0, nodes⟩
  return adjoints.gradient.toList

end Sweep

namespace Graph

/-- The value of an expression at a point, given as one number per listed variable. -/
def evaluate (g : Graph α) (root : Expr) (vars : List Var) (point : List α) :
    Except (Failure α) α := do
  let sweep ← Sweep.forward g root vars point
  sweep.value

/-- The gradient of an expression in the listed variables at a point. -/
def differentiate (g : Graph α) (root : Expr) (vars : List Var) (point : List α) :
    Except (Failure α) (List α) := do
  let sweep ← Sweep.forward g root vars point
  sweep.gradient g vars.length

/-- Value and gradient from one forward and one reverse sweep. -/
def valueAndGradient (g : Graph α) (root : Expr) (vars : List Var) (point : List α) :
    Except (Failure α) (α × List α) := do
  let sweep ← Sweep.forward g root vars point
  return (← sweep.value, ← sweep.gradient g vars.length)

end Graph

end Autodiff
