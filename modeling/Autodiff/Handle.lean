namespace Autodiff

/-- A handle to a node: its position in the graph that holds it. -/
structure Expr where
  index : Nat
  deriving DecidableEq, Repr, Inhabited

/-- The identity of a free variable, counted from zero within one graph. -/
structure VarId where
  number : Nat
  deriving DecidableEq, Repr, Inhabited

def VarId.text (id : VarId) : String := s!"v{id.number}"

/-- A variable together with its node. -/
structure Var where
  id : VarId
  expr : Expr
  deriving DecidableEq, Repr, Inhabited

end Autodiff
