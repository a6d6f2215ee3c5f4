import Autodiff.Decimal
import Autodiff.Handle

namespace Autodiff

/-- What a call reports when its input does not fit: handles and lists that do not match the
graph, and arguments outside the domain of an operation. -/
inductive Error (α : Type) where
  | lengthMismatch (expected found : Nat)
  | unboundVariable (id : VarId)
  | duplicateVariable (id : VarId)
  | foreignNode (index size : Nat)
  | parameterMismatch (expected found : Nat)
  | powerDomain (base exponent : α)
  | logDomain (argument : α)
  deriving DecidableEq, Repr

def Error.message : Error Float → String
  | .lengthMismatch expected found => s!"expected {expected} values, found {found}"
  | .unboundVariable id => s!"variable {id.text} is reachable from the root but is not bound"
  | .duplicateVariable id => s!"variable {id.text} is bound more than once"
  | .foreignNode index size => s!"node {index} does not belong to this graph ({size} nodes)"
  | .parameterMismatch expected found => s!"plan takes {expected} parameters, got {found}"
  | .powerDomain base exponent =>
    "non-integer power " ++ floatText exponent ++ " of non-positive base " ++ floatText base
  | .logDomain argument => "logarithm of non-positive argument " ++ floatText argument

/-- A broken promise of the caller, for which an operation has no answer at all. -/
inductive Fault where
  | foreignHandle (index size : Nat)
  | noActiveGraph
  | lengthsDiffer (left right : Nat)
  | notThreeVectors (left right : Nat)
  | indexOutOfRange (size index : Nat)
  | noSlot (node : Nat)
  | leafNotEvaluated
  | sumNotEvaluated
  | capacityOverflow
  deriving DecidableEq, Repr

def Fault.message : Fault → String
  | .foreignHandle index size =>
    s!"expression handle {index} does not belong to this graph ({size} nodes)"
  | .noActiveGraph => "No active graph. Build operator expressions inside Graph::scope()."
  | .lengthsDiffer left right =>
    "assertion `left == right` failed: vector length mismatch: " ++
      s!"{left} vs {right}\n  left: {left}\n right: {right}"
  | .notThreeVectors left right =>
    s!"cross product needs two 3-vectors, got {left} and {right}"
  | .indexOutOfRange size index =>
    s!"index out of bounds: the len is {size} but the index is {index}"
  | .noSlot node => s!"node {node} has no slot"
  | .leafNotEvaluated =>
    "internal error: entered unreachable code: Input/Const values are seeded, not evaluated"
  | .sumNotEvaluated =>
    "internal error: entered unreachable code: Sum is accumulated over its operand table"
  | .capacityOverflow => "capacity overflow"

/-- Why a call gave no answer. -/
inductive Failure (α : Type) where
  | refused (cause : Error α)
  | fault (cause : Fault)
  deriving DecidableEq, Repr

def Failure.message : Failure Float → String
  | .refused cause => cause.message
  | .fault cause => cause.message

variable {α β : Type}

/-- The entry at a position, which has to exist. -/
def fetch (xs : Array β) (i : Nat) : Except (Failure α) β :=
  match xs[i]? with
  | some x => .ok x
  | none => .error (.fault (.indexOutOfRange xs.size i))

/-- Replaces the entry at a position, which has to exist. -/
def store (xs : Array β) (i : Nat) (x : β) : Except (Failure α) (Array β) :=
  if h : i < xs.size then .ok (xs.set i x h)
  else .error (.fault (.indexOutOfRange xs.size i))

end Autodiff
