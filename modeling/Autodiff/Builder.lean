import Autodiff.Graph

namespace Autodiff

/-- An action that extends a graph. When it fails, the nodes it added before stay. -/
abbrev Build (α : Type) := EStateM (Failure α) (Graph α)

namespace Build

variable {α : Type} [Scalar α]

/-- The node behind an operand, whose handle has to belong to the graph. -/
def lookup (e : Expr) : Build α (Node α) := do
  let g ← get
  match g.nodes[e.index]? with
  | some node => pure node
  | none => throw (.fault (.foreignHandle e.index g.size))

def push (node : Node α) : Build α Expr :=
  modifyGet fun g => (⟨g.nodes.size⟩, { g with nodes := g.nodes.push node })

def constant (value : α) : Build α Expr := push (.constant value)

/-- A free variable that the graph has not had before. -/
def newVar : Build α Var := do
  let id ← modifyGet fun g => (VarId.mk g.nextVar, { g with nextVar := g.nextVar + 1 })
  return ⟨id, ← push (.variable id)⟩

def newVars : Nat → Build α (List Var)
  | 0 => pure []
  | n + 1 => do
    let x ← newVar
    return x :: (← newVars n)

/-- The sum of two expressions: constants are added at once, and adding zero gives the other
operand itself. -/
def add (a b : Expr) : Build α Expr := do
  match ← lookup a, ← lookup b with
  | .constant x, .constant y => constant (x + y)
  | .constant x, _ => if x == 0 then pure b else push (.binary .add a b)
  | _, .constant y => if y == 0 then pure a else push (.binary .add a b)
  | _, _ => push (.binary .add a b)

/-- The product of two expressions: constants are multiplied at once, and multiplying by one
gives the other operand itself. -/
def mul (a b : Expr) : Build α Expr := do
  match ← lookup a, ← lookup b with
  | .constant x, .constant y => constant (x * y)
  | .constant x, _ => if x == 1 then pure b else push (.binary .multiply a b)
  | _, .constant y => if y == 1 then pure a else push (.binary .multiply a b)
  | _, _ => push (.binary .multiply a b)

/-- The negative of an expression; negating twice gives back the expression itself. -/
def neg (a : Expr) : Build α Expr := do
  match ← lookup a with
  | .constant x => constant (-x)
  | .unary .negate arg => pure arg
  | _ => push (.unary .negate a)

/-- Adds the negative of `b`. -/
def sub (a b : Expr) : Build α Expr := do
  let negative ← neg b
  add a negative

/-- A power with a constant exponent. Exponents one and zero need no node, and a constant base
folds when the power is defined; otherwise evaluation will report the domain error. -/
def pow (base : Expr) (exponent : α) : Build α Expr := do
  let node ← lookup base
  if exponent == 1 then pure base
  else if exponent == 0 then constant 1
  else
    match node.constant?.map (powerValue · exponent) with
    | some (.ok value) => constant value
    | _ => push (.power base exponent)

/-- A power with a whole exponent. -/
def powInt (base : Expr) (exponent : Int) : Build α Expr := pow base (exponent : α)

def square (a : Expr) : Build α Expr := pow a Scalar.two

/-- Multiplies by the reciprocal of `b`. -/
def div (a b : Expr) : Build α Expr := do
  let reciprocal ← pow b (-1)
  mul a reciprocal

def exp (a : Expr) : Build α Expr := do
  match ← lookup a with
  | .constant x => constant (Scalar.exp x)
  | _ => push (.unary .exp a)

/-- The natural logarithm; only that of a positive constant folds. -/
def log (a : Expr) : Build α Expr := do
  match ← lookup a with
  | .constant x => if 0 < x then constant (Scalar.log x) else push (.unary .log a)
  | _ => push (.unary .log a)

/-- The sum of any number of expressions. Its constants are added up into one last term, which
is left out when it is zero; an empty sum is zero, and a single term stands for itself. -/
def sum (terms : List Expr) : Build α Expr := do
  let nodes ← terms.mapM lookup
  let constants := nodes.filterMap Node.constant?
  let kept := ((terms.zip nodes).filter fun t => t.2.constant?.isNone).map Prod.fst
  let folded := constants.foldl (· + ·) 0
  if kept.isEmpty then constant folded
  else do
    let summands ←
      if !constants.isEmpty && folded != 0 then do
        let c ← constant folded
        pure (kept ++ [c])
      else pure kept
    match summands with
    | [single] => pure single
    | _ => push (.sum summands)

end Build

end Autodiff
