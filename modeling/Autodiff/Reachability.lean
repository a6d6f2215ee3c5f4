import Autodiff.Graph

namespace Autodiff

namespace Graph

variable {α : Type}

/-- Puts those operands on the stack that have not been seen, and marks them. -/
def pushUnseen (operands : List Expr) (stack : List Nat) (seen : Array Bool) :
    List Nat × Array Bool :=
  operands.foldl (fun (stack, seen) e =>
    if seen.getD e.index false then (stack, seen)
    else (e.index :: stack, seen.setIfInBounds e.index true)) (stack, seen)

/-- Depth-first search downward from the nodes on the stack. An operand that does not precede
its node cannot belong to this graph. Every node is pushed at most once, so a budget of one
step per node suffices. -/
def visit (g : Graph α) : Nat → List Nat → Array Bool → Except (Failure α) (Array Bool)
  | 0, _, seen => .ok seen
  | _, [], seen => .ok seen
  | budget + 1, i :: stack, seen => do
    let operands := (← fetch g.nodes i).operands
    match operands.reverse.find? (fun e => i ≤ e.index) with
    | some foreign => throw (.refused (.foreignNode foreign.index g.size))
    | none =>
      let (stack, seen) := pushUnseen operands stack seen
      visit g budget stack seen

/-- The positions of the nodes that `root` depends on, ascending, so that every node comes
after its operands. -/
def reachable (g : Graph α) (root : Expr) : Except (Failure α) (List Nat) := do
  let _ ← g.node root
  let count := root.index + 1
  let seen ← g.visit count [root.index] ((Array.replicate count false).setIfInBounds root.index true)
  return (List.range count).filter (seen.getD · false)

/-- The variable whose node stands at a position, if it is a variable node. -/
def varAt? (g : Graph α) (i : Nat) : Option Var :=
  match g.nodes[i]? with
  | some (.variable id) => some ⟨id, ⟨i⟩⟩
  | _ => none

/-- The variables that `root` depends on, in the order of their nodes. -/
def variablesOf (g : Graph α) (root : Expr) : Except (Failure α) (List Var) := do
  let order ← g.reachable root
  return order.filterMap g.varAt?

end Graph

end Autodiff
