import Autodiff.Failure
import Autodiff.Scalar

namespace Autodiff

inductive UnaryOp where
  | negate
  | exp
  | log
  deriving DecidableEq, Repr

inductive BinaryOp where
  | add
  | multiply
  deriving DecidableEq, Repr

variable {α : Type} [Scalar α]

/-- The logarithm is defined on positive arguments only. -/
def UnaryOp.value (op : UnaryOp) (a : α) : Except (Error α) α :=
  match op with
  | .negate => .ok (-a)
  | .exp => .ok (Scalar.exp a)
  | .log => if a ≤ 0 then .error (.logDomain a) else .ok (Scalar.log a)

/-- The derivative at `a`, where `r` is the value there. -/
def UnaryOp.slope (op : UnaryOp) (a r : α) : α :=
  match op with
  | .negate => -1
  | .exp => r
  | .log => 1 / a

def BinaryOp.value (op : BinaryOp) (a b : α) : α :=
  match op with
  | .add => a + b
  | .multiply => a * b

/-- The derivatives in the left and in the right operand. -/
def BinaryOp.slopes (op : BinaryOp) (a b : α) : α × α :=
  match op with
  | .add => (1, 1)
  | .multiply => (b, a)

/-- A power with a constant exponent. Without a whole exponent the base has to be positive. -/
def powerValue (base exponent : α) : Except (Error α) α :=
  if !Scalar.isInteger exponent && decide (base ≤ 0) then .error (.powerDomain base exponent)
  else .ok (Scalar.pow base exponent)

/-- The derivative of a power in its base; with exponent zero the power is a constant. -/
def powerSlope (base exponent : α) : α :=
  if exponent == 0 then 0 else exponent * Scalar.pow base (exponent - 1)

/-- The elementary operations by name, one for each kind of node or tape instruction. -/
inductive Opcode where
  | input
  | constant
  | add
  | multiply
  | power
  | negate
  | exp
  | log
  | sum
  deriving DecidableEq, Repr

/-- The value of one operation on operands `a` and `b`. An operation with a single operand
ignores `b`, and for a power `b` is the exponent. Leaves hold given values, and sums have
operand lists, so neither has a value of this form. -/
def Opcode.value (op : Opcode) (a b : α) : Except (Failure α) α :=
  match op with
  | .input | .constant => .error (.fault .leafNotEvaluated)
  | .sum => .error (.fault .sumNotEvaluated)
  | .add => .ok (BinaryOp.add.value a b)
  | .multiply => .ok (BinaryOp.multiply.value a b)
  | .power => (powerValue a b).mapError .refused
  | .negate => (UnaryOp.negate.value a).mapError .refused
  | .exp => (UnaryOp.exp.value a).mapError .refused
  | .log => (UnaryOp.log.value a).mapError .refused

/-- The derivatives of one operation in both operands, where `r` is its value. A second
operand that is missing or constant has derivative zero. -/
def Opcode.slopes (op : Opcode) (a b r : α) : α × α :=
  match op with
  | .input | .constant => (0, 0)
  | .sum => (1, 0)
  | .add => BinaryOp.add.slopes a b
  | .multiply => BinaryOp.multiply.slopes a b
  | .power => (powerSlope a b, 0)
  | .negate => (UnaryOp.negate.slope a r, 0)
  | .exp => (UnaryOp.exp.slope a r, 0)
  | .log => (UnaryOp.log.slope a r, 0)

end Autodiff
