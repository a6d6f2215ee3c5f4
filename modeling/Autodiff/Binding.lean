import Autodiff.Graph

namespace Autodiff

namespace Graph

variable {α : Type}

/-- Where each node's variable stands in a list of bound variables. -/
abbrev Slots := Array (Option Nat)

def unbound (g : Graph α) : Slots := Array.replicate g.size none

/-- Gives one variable a slot. Its handle has to name a variable node of the graph with the
same identity, and it must not have a slot already. -/
def bindVar (g : Graph α) (slots : Slots) (x : Var) (slot : Nat) : Except (Failure α) Slots := do
  match ← g.node x.expr with
  | .variable id =>
    if id = x.id then
      match ← fetch slots x.expr.index with
      | some _ => throw (.refused (.duplicateVariable x.id))
      | none => store slots x.expr.index (some slot)
    else throw (.refused (.foreignNode x.expr.index g.size))
  | _ => throw (.refused (.foreignNode x.expr.index g.size))

/-- Gives the listed variables consecutive slots from `first` on. -/
def bind (g : Graph α) (vars : List Var) (slots : Slots) (first : Nat) :
    Except (Failure α) Slots :=
  match vars with
  | [] => .ok slots
  | x :: rest => do
    let slots ← g.bindVar slots x first
    g.bind rest slots (first + 1)

end Graph

end Autodiff
