import Autodiff.Builder

namespace Autodiff

/-- A vector whose components are expressions of one graph. -/
structure TermVector where
  components : List Expr
  deriving DecidableEq, Repr

namespace TermVector

variable {α : Type} [Scalar α]

def ofVars (vars : List Var) : TermVector := ⟨vars.map Var.expr⟩

def size (a : TermVector) : Nat := a.components.length

def isEmpty (a : TermVector) : Bool := a.components.isEmpty

/-- The component at a position, counted from zero. -/
def get (a : TermVector) (i : Nat) : Except (Failure α) Expr :=
  match a.components[i]? with
  | some e => .ok e
  | none => .error (.fault (.indexOutOfRange a.size i))

/-- A vector of constant nodes. -/
def constants (values : List α) : Build α TermVector :=
  return ⟨← values.mapM Build.constant⟩

/-- Joins two vectors component by component. Vectors of different length are turned away
before anything is built. -/
def zipWith (f : Expr → Expr → Build α Expr) (a b : TermVector) : Build α TermVector :=
  if a.size = b.size then
    return ⟨← (a.components.zip b.components).mapM fun (x, y) => f x y⟩
  else throw (.fault (.lengthsDiffer a.size b.size))

def add (a b : TermVector) : Build α TermVector := zipWith Build.add a b

def sub (a b : TermVector) : Build α TermVector := zipWith Build.sub a b

/-- Every component multiplied by one factor. -/
def scale (a : TermVector) (factor : Expr) : Build α TermVector :=
  return ⟨← a.components.mapM (Build.mul factor)⟩

def neg (a : TermVector) : Build α TermVector :=
  return ⟨← a.components.mapM Build.neg⟩

/-- The inner product, one sum of products. -/
def dot (a b : TermVector) : Build α Expr := do
  let products ← zipWith Build.mul a b
  Build.sum products.components

/-- The sum of the squared components. -/
def normSquared (a : TermVector) : Build α Expr := do
  let squares ← a.components.mapM Build.square
  Build.sum squares

/-- The cross product of two vectors with three components. -/
def cross (a b : TermVector) : Build α TermVector :=
  match a.components, b.components with
  | [a0, a1, a2], [b0, b1, b2] => do
    let x ← minor a1 b2 a2 b1
    let y ← minor a2 b0 a0 b2
    let z ← minor a0 b1 a1 b0
    return ⟨[x, y, z]⟩
  | _, _ => throw (.fault (.notThreeVectors a.size b.size))
where
  minor (p q r s : Expr) : Build α Expr := do
    let first ← Build.mul p q
    let second ← Build.mul r s
    Build.sub first second

end TermVector

end Autodiff
