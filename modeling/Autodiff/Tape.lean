import Autodiff.Sweep

namespace Autodiff

/-- One slot of a tape. Operands are given by their slots, and those of a sum as a range of the
tape's operand table. -/
inductive Instruction (α : Type) where
  | input
  | constant (value : α)
  | unary (op : UnaryOp) (arg : Nat)
  | binary (op : BinaryOp) (lhs rhs : Nat)
  | power (base exponent : Nat)
  | sum (offset count : Nat)
  deriving DecidableEq, Repr

/-- An expression laid out for repeated evaluation: the differentiated variables come first,
then the parameters, then constants and operations, each after its operands. -/
structure Tape (α : Type) where
  code : Array (Instruction α)
  /-- The operand slots of all sums, one range after another. -/
  operands : Array Nat
  inputs : Nat
  params : Nat
  output : Nat
  deriving DecidableEq, Repr

/-- A tape under construction, with the slots of the nodes laid out so far. -/
structure Layout (α : Type) where
  code : Array (Instruction α)
  operands : Array Nat
  slots : Graph.Slots

namespace Layout

variable {α : Type}

/-- The slot of a node that has been laid out. -/
def slotOf (l : Layout α) (i : Nat) : Except (Failure α) Nat := do
  match ← fetch l.slots i with
  | some slot => return slot
  | none => throw (.fault (.noSlot i))

/-- Appends the instruction of a node. -/
def emit (l : Layout α) (i : Nat) (instruction : Instruction α) :
    Except (Failure α) (Layout α) := do
  let slots ← store l.slots i (some l.code.size)
  return { l with code := l.code.push instruction, slots }

/-- Lays out one node. A variable has its slot from the start; a power takes a slot of its own
for the exponent. -/
def place (g : Graph α) (l : Layout α) (i : Nat) : Except (Failure α) (Layout α) := do
  match ← fetch g.nodes i with
  | .variable id =>
    match ← fetch l.slots i with
    | some _ => return l
    | none => throw (.refused (.unboundVariable id))
  | .constant value => l.emit i (.constant value)
  | .unary op arg => do l.emit i (.unary op (← l.slotOf arg.index))
  | .binary op lhs rhs => do
    l.emit i (.binary op (← l.slotOf lhs.index) (← l.slotOf rhs.index))
  | .power base exponent => do
    let base ← l.slotOf base.index
    let slot := l.code.size
    { l with code := l.code.push (.constant exponent) }.emit i (.power base slot)
  | .sum terms => do
    let slots ← terms.mapM fun t => l.slotOf t.index
    let offset := l.operands.size
    { l with operands := l.operands ++ slots.toArray }.emit i (.sum offset terms.length)

end Layout

namespace Tape

variable {α : Type}

/-- Number of slots. -/
def size (t : Tape α) : Nat := t.code.size

def isEmpty (t : Tape α) : Bool := t.code.isEmpty

end Tape

namespace Graph

variable {α : Type}

/-- Lays out an expression whose gradient in the variables is wanted; the parameters take their
values anew at every evaluation but are not differentiated. -/
def compileParametric (g : Graph α) (root : Expr) (vars parameters : List Var) :
    Except (Failure α) (Tape α) := do
  let order ← g.reachable root
  let slots ← g.bind vars g.unbound 0
  let slots ← g.bind parameters slots vars.length
  let leaves := vars.length + parameters.length
  let layout ← order.foldlM (Layout.place g) ⟨Array.replicate leaves .input, #[], slots⟩
  return {
    code := layout.code
    operands := layout.operands
    inputs := vars.length
    params := parameters.length
    output := ← layout.slotOf root.index }

/-- Lays out an expression without parameters. -/
def compile (g : Graph α) (root : Expr) (vars : List Var) : Except (Failure α) (Tape α) :=
  g.compileParametric root vars []

end Graph

end Autodiff
