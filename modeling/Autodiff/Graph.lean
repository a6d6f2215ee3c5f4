import Autodiff.Operation

namespace Autodiff

/-- One scalar expression over earlier expressions. -/
inductive Node (α : Type) where
  | constant (value : α)
  | variable (id : VarId)
  | unary (op : UnaryOp) (arg : Expr)
  | binary (op : BinaryOp) (lhs rhs : Expr)
  | power (base : Expr) (exponent : α)
  | sum (terms : List Expr)
  deriving DecidableEq, Repr

/-- The operands in order, each as often as it occurs. -/
def Node.operands {α : Type} : Node α → List Expr
  | .constant _ | .variable _ => []
  | .unary _ arg => [arg]
  | .binary _ lhs rhs => [lhs, rhs]
  | .power base _ => [base]
  | .sum terms => terms

def Node.constant? {α : Type} : Node α → Option α
  | .constant value => some value
  | _ => none

/-- Nodes in the order of their creation, and the number of the next variable. Both grow without a
bound here: it is left out that a graph with `2 ^ 32 - 1` nodes is full, and that the number of the
next variable has to fit in 32 bits. -/
structure Graph (α : Type) where
  nodes : Array (Node α) := #[]
  nextVar : Nat := 0
  deriving DecidableEq, Repr

namespace Graph

variable {α : Type}

def empty : Graph α := {}

def size (g : Graph α) : Nat := g.nodes.size

def isEmpty (g : Graph α) : Bool := g.nodes.isEmpty

/-- Variables created so far. -/
def variableCount (g : Graph α) : Nat := g.nextVar

def node (g : Graph α) (e : Expr) : Except (Failure α) (Node α) :=
  match g.nodes[e.index]? with
  | some node => .ok node
  | none => .error (.refused (.foreignNode e.index g.size))

end Graph

end Autodiff
