import Autodiff.Builder

namespace Autodiff

inductive BinaryOperator where
  | add
  | sub
  | mul
  | div
  deriving DecidableEq, Repr

inductive UnaryOperator where
  | neg
  | exp
  | log
  | square
  deriving DecidableEq, Repr

/-- A term written with operators. It says nothing of the graph that it will be recorded into,
except where a part is recorded into a graph of its own. -/
inductive Formula (α : Type) where
  | number (value : α)
  | expr (e : Expr)
  | binary (op : BinaryOperator) (lhs rhs : Formula α)
  | unary (op : UnaryOperator) (arg : Formula α)
  | pow (base : Formula α) (exponent : α)
  | powInt (base : Formula α) (exponent : Int)
  | sum (terms : List (Formula α))
  | within (graph : String) (body : Formula α)

/-- What an operator takes: an expression, or a number that has no node yet. -/
inductive Operand (α : Type) where
  | number (value : α)
  | expr (e : Expr)
  deriving DecidableEq, Repr

/-- Graphs by name, and the one that operators record into at the moment. -/
structure Workspace (α : Type) where
  graphs : List (String × Graph α) := []
  active : Option String := none

namespace Workspace

variable {α β : Type}

def graph? (w : Workspace α) (name : String) : Option (Graph α) := w.graphs.lookup name

/-- Changes the graph of one name and leaves the others as they are. A name that is new starts
with an empty graph. -/
def update (name : String) (change : Graph α → β × Graph α) :
    List (String × Graph α) → β × List (String × Graph α)
  | [] =>
    let (x, g) := change {}
    (x, [(name, g)])
  | (other, g) :: rest =>
    if other = name then
      let (x, g) := change g
      (x, (other, g) :: rest)
    else
      let (x, rest) := update name change rest
      (x, (other, g) :: rest)

/-- Puts a graph under a name, in place of the one that had it. -/
def setGraph (w : Workspace α) (name : String) (g : Graph α) : Workspace α :=
  { w with graphs := (update name (fun _ => ((), g)) w.graphs).2 }

/-- Builds in a named graph. -/
def build (name : String) (act : Build α β) : EStateM (Failure α) (Workspace α) β :=
  fun ⟨graphs, active⟩ =>
    let run (g : Graph α) : Except (Failure α) β × Graph α :=
      match act.run g with
      | .ok x g => (.ok x, g)
      | .error e g => (.error e, g)
    match update name run graphs with
    | (.ok x, graphs) => .ok x ⟨graphs, active⟩
    | (.error e, graphs) => .error e ⟨graphs, active⟩

/-- Builds in the active graph. -/
def record (act : Build α β) : EStateM (Failure α) (Workspace α) β := do
  match (← get).active with
  | some name => build name act
  | none => throw (.fault .noActiveGraph)

/-- Makes a graph active for one action. The graph that was active before is active again
afterwards, also when the action fails. -/
def scope (name : String) (act : EStateM (Failure α) (Workspace α) β) :
    EStateM (Failure α) (Workspace α) β := fun w =>
  match act.run { w with active := some name } with
  | .ok x v => .ok x { v with active := w.active }
  | .error e v => .error e { v with active := w.active }

end Workspace

/-- The expression of an operand; a number becomes a constant node now. -/
def Operand.toExpr {α : Type} [Scalar α] : Operand α → Build α Expr
  | .number value => Build.constant value
  | .expr e => pure e

def BinaryOperator.build {α : Type} [Scalar α] : BinaryOperator → Expr → Expr → Build α Expr
  | .add => Build.add
  | .sub => Build.sub
  | .mul => Build.mul
  | .div => Build.div

def UnaryOperator.build {α : Type} [Scalar α] : UnaryOperator → Expr → Build α Expr
  | .neg => Build.neg
  | .exp => Build.exp
  | .log => Build.log
  | .square => Build.square

namespace Formula

variable {α : Type} [Scalar α]

mutual

/-- Records a formula: the operands from left to right, then the operator, whose plain numbers
become constants just before it. -/
def record : Formula α → EStateM (Failure α) (Workspace α) (Operand α)
  | .number value => pure (.number value)
  | .expr e => pure (.expr e)
  | .binary op lhs rhs => do
    let a ← record lhs
    let b ← record rhs
    let e ← Workspace.record do
      let x ← a.toExpr
      let y ← b.toExpr
      op.build x y
    return .expr e
  | .unary op arg => do
    let a ← record arg
    let e ← Workspace.record do op.build (← a.toExpr)
    return .expr e
  | .pow base exponent => do
    let a ← record base
    let e ← Workspace.record do Build.pow (← a.toExpr) exponent
    return .expr e
  | .powInt base exponent => do
    let a ← record base
    let e ← Workspace.record do Build.powInt (← a.toExpr) exponent
    return .expr e
  | .sum terms => do
    let operands ← recordAll terms
    let e ← Workspace.record do Build.sum (← operands.mapM Operand.toExpr)
    return .expr e
  | .within graph body => Workspace.scope graph (record body)

def recordAll : List (Formula α) → EStateM (Failure α) (Workspace α) (List (Operand α))
  | [] => pure []
  | t :: rest => do
    let a ← record t
    let others ← recordAll rest
    return a :: others

end

end Formula

/-- The expression of a whole formula. One that is a mere number needs an active graph. -/
def Formula.recordExpr {α : Type} [Scalar α] (t : Formula α) :
    EStateM (Failure α) (Workspace α) Expr := do
  match ← t.record with
  | .expr e => pure e
  | .number value => Workspace.record (Build.constant value)

end Autodiff
