import Autodiff.Scalar

namespace Autodiff

variable {α : Type} [Scalar α]

/-- The inner product of two vectors. Entries without a partner in the other vector do not count. -/
def dot (a b : List α) : α := (List.zipWith (· * ·) a b).foldl (· + ·) 0

def norm (v : List α) : α := Scalar.sqrt (dot v v)

/-- Changes the entries of `a` by those of `b`. Entries of `a` without a partner stay. -/
def adjust (f : α → α → α) : List α → List α → List α
  | [], _ => []
  | x :: a, [] => x :: a
  | x :: a, y :: b => f x y :: adjust f a b

/-- The point `x + t * d`. It has as many coordinates as `x`, and those for which `d` has no
entry are zero. -/
def along (x d : List α) (t : α) : List α :=
  List.zipWith (fun xi di => xi + t * di) x d ++ List.replicate (x.length - d.length) 0

end Autodiff
