import Autodiff.Tape

namespace Autodiff

/-- Buffers that evaluations of tapes can share, each with an entry per slot of the tape used
last. -/
structure Scratch (α : Type) where
  values : Array α := #[]
  adjoints : Array α := #[]

/-- An evaluation that works in shared buffers. When it fails, the buffers stay as it left
them. -/
abbrev Evaluating (α : Type) := EStateM (Failure α) (Scratch α)

namespace Evaluating

variable {α β : Type}

def onValues (act : EStateM (Failure α) (Array α) β) : Evaluating α β := fun ⟨values, adjoints⟩ =>
  match act values with
  | .ok x values => .ok x ⟨values, adjoints⟩
  | .error e values => .error e ⟨values, adjoints⟩

/-- What an evaluation answers when its buffers are new. -/
def fresh (act : Evaluating α β) : Except (Failure α) β :=
  match act.run {} with
  | .ok x _ => .ok x
  | .error e _ => .error e

end Evaluating

namespace Tape

variable {α : Type} [Scalar α]

def checkLengths (t : Tape α) (point params : List α) : Except (Failure α) Unit :=
  if point.length ≠ t.inputs then
    .error (.refused (.lengthMismatch t.inputs point.length))
  else if params.length ≠ t.params then
    .error (.refused (.parameterMismatch t.params params.length))
  else .ok ()

/-- What a slot holds before the sweep reaches it. -/
def seed : Instruction α → α
  | .constant value => value
  | _ => 0

/-- Fills a buffer with the point, the parameters, and the constants of the tape. -/
def load (t : Tape α) (point params : List α) (buffer : Array α) : Array α :=
  buffer.shrink 0 ++ point ++ params ++
    (t.code.extract (point.length + params.length) t.code.size).map seed

/-- The slots that a sum adds up. -/
def summands (t : Tape α) (offset count : Nat) : Except (Failure α) (List Nat) :=
  if offset + count ≤ t.operands.size then
    .ok (t.operands.extract offset (offset + count)).toList
  else .error (.fault (.indexOutOfRange t.operands.size (offset + count)))

/-- The value of one instruction, given the values of earlier slots; leaves have theirs. -/
def result? (t : Tape α) (values : Array α) : Instruction α → Except (Failure α) (Option α)
  | .input | .constant _ => .ok none
  | .unary op arg => do
    let a ← fetch values arg
    return some (← (op.value a).mapError .refused)
  | .binary op lhs rhs => do
    let a ← fetch values lhs
    let b ← fetch values rhs
    return some (op.value a b)
  | .power base exponent => do
    let a ← fetch values base
    let b ← fetch values exponent
    return some (← (powerValue a b).mapError .refused)
  | .sum offset count => do
    let slots ← t.summands offset count
    return some (Scalar.total (← slots.mapM (fetch values)))

/-- Evaluates one slot in a buffer. -/
def forwardStep (t : Tape α) (i : Nat) : EStateM (Failure α) (Array α) Unit := fun values =>
  match fetch t.code i >>= t.result? values with
  | .ok (some value) => .ok () (values.setIfInBounds i value)
  | .ok none => .ok () values
  | .error e => .error e values

/-- Fills a buffer with the value of every slot. -/
def forward (t : Tape α) (point params : List α) : EStateM (Failure α) (Array α) Unit := do
  match t.checkLengths point params with
  | .error e => throw e
  | .ok () =>
    modify (t.load point params)
    let leaves := point.length + params.length
    (List.range' leaves (t.size - leaves)).forM t.forwardStep

/-- What each operand of a slot gains when the slot has the given adjoint. The exponent of a
power is a constant and gains nothing. -/
def shares (t : Tape α) (values : Array α) (i : Nat) (adjoint : α) :
    Instruction α → Except (Failure α) (List (Nat × α))
  | .input | .constant _ => .ok []
  | .unary op arg => do
    let a ← fetch values arg
    return [(arg, op.slope a (← fetch values i) * adjoint)]
  | .binary op lhs rhs => do
    let a ← fetch values lhs
    let b ← fetch values rhs
    let slopes := op.slopes a b
    return [(lhs, slopes.1 * adjoint), (rhs, slopes.2 * adjoint)]
  | .power base exponent => do
    let a ← fetch values base
    let b ← fetch values exponent
    return [(base, powerSlope a b * adjoint)]
  | .sum offset count => return (← t.summands offset count).map fun s => (s, adjoint)

/-- Passes the adjoint of one slot on to its operands. A zero adjoint passes nothing on. -/
def reverseStep (t : Tape α) (values : Array α) (adjoints : Array α) (i : Nat) :
    Except (Failure α) (Array α) := do
  let adjoint ← fetch adjoints i
  if adjoint == 0 then return adjoints
  else do
    let shares ← t.shares values i adjoint (← fetch t.code i)
    accumulateAll adjoints shares

/-- The adjoint of every slot, in a buffer that is filled with zeros first. -/
def reverse (t : Tape α) (values buffer : Array α) : Except (Failure α) (Array α) := do
  let zeros := buffer.shrink 0 ++ List.replicate t.size (0 : α)
  let adjoints ← store zeros t.output 1
  (List.range t.size).reverse.foldlM (t.reverseStep values) adjoints

/-- Value and gradient at a point, worked out in shared buffers. -/
def evaluateWith (t : Tape α) (point params : List α) : Evaluating α (α × List α) := do
  Evaluating.onValues (t.forward point params)
  fun ⟨values, buffer⟩ =>
    match fetch values t.output, t.reverse values buffer with
    | .ok value, .ok adjoints => .ok (value, adjoints.toList.take t.inputs) ⟨values, adjoints⟩
    | .error e, _ => .error e ⟨values, buffer⟩
    | _, .error e => .error e ⟨values, buffer⟩

/-- The value at a point, worked out in shared buffers. -/
def valueWith (t : Tape α) (point params : List α) : Evaluating α α := do
  Evaluating.onValues (t.forward point params)
  fun scratch =>
    match fetch scratch.values t.output with
    | .ok value => .ok value scratch
    | .error e => .error e scratch

/-- Value and gradient at a point, with values for the parameters. -/
def evaluateParametric (t : Tape α) (point params : List α) : Except (Failure α) (α × List α) :=
  (t.evaluateWith point params).fresh

/-- Value and gradient at a point. -/
def evaluate (t : Tape α) (point : List α) : Except (Failure α) (α × List α) :=
  t.evaluateParametric point []

def valueParametric (t : Tape α) (point params : List α) : Except (Failure α) α :=
  (t.valueWith point params).fresh

def value (t : Tape α) (point : List α) : Except (Failure α) α :=
  t.valueParametric point []

/-- Value and gradient at each point in order, up to the first point that fails. One pair of
buffers serves all points. -/
def evaluateBatch (t : Tape α) (points : List (List α)) :
    Except (Failure α) (List (α × List α)) :=
  Evaluating.fresh (points.mapM fun point => t.evaluateWith point [])

/-- Value and gradient at each point, every point evaluated on its own. -/
def evaluateEach (t : Tape α) (points : List (List α)) :
    Except (Failure α) (List (α × List α)) :=
  points.mapM t.evaluate

end Tape

end Autodiff
