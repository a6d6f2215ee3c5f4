import Autodiff.Problem

namespace Autodiff

/-- A tree of data as it is exchanged with other programs. Whole numbers are told apart from
other numbers. -/
inductive Document (α : Type) where
  | null
  | bool (value : Bool)
  | integer (value : Int)
  | real (value : α)
  | text (value : String)
  | list (items : List (Document α))
  | object (fields : List (String × Document α))

namespace Document

variable {α β : Type}

/-- The fields of an object with the given names. Other fields are ignored. -/
def fields? (names : List String) : Document α → Option (List (Document α))
  | .object fields => names.mapM fun name => fields.lookup name
  | _ => none

/-- The parts of a record by name. They may also be listed without names, in the order in which
the record declares them. -/
def parts? (names : List String) : Document α → Option (List (Document α))
  | .list items => if items.length = names.length then some items else none
  | d => d.fields? names

/-- The kind of a variant and what it holds. -/
def variant? : Document α → Option (String × Document α)
  | .object [field] => some field
  | _ => none

/-- The name of a variant that holds nothing. -/
def name? : Document α → Option String
  | .text name => some name
  | .object [(name, .null)] => some name
  | _ => none

def listOf? (read : Document α → Option β) : Document α → Option (List β)
  | .list items => items.mapM read
  | _ => none

/-- A whole number that fits in 32 bits. -/
def word? : Document α → Option Nat
  | .integer n => if 0 ≤ n ∧ n.toNat < UInt32.size then some n.toNat else none
  | _ => none

def expr? (d : Document α) : Option Expr := d.word?.map Expr.mk

variable [Scalar α]

/-- A number; a special value has no written form, so it is never read. -/
def number? : Document α → Option α
  | .integer n => if Scalar.isFinite (n : α) then some (n : α) else none
  | .real x => if Scalar.isFinite x then some x else none
  | _ => none

/-- A number, or nothing in place of an infinite or undefined value. -/
def ofNumber (x : α) : Document α := if Scalar.isFinite x then .real x else .null

end Document

def Expr.toDocument {α : Type} (e : Expr) : Document α := .integer e.index

def UnaryOp.name : UnaryOp → String
  | .negate => "Negate"
  | .exp => "Exp"
  | .log => "Log"

def UnaryOp.ofName? : String → Option UnaryOp
  | "Negate" => some .negate
  | "Exp" => some .exp
  | "Log" => some .log
  | _ => none

def BinaryOp.name : BinaryOp → String
  | .add => "Add"
  | .multiply => "Multiply"

def BinaryOp.ofName? : String → Option BinaryOp
  | "Add" => some .add
  | "Multiply" => some .multiply
  | _ => none

variable {α : Type} [Scalar α]

def Node.toDocument : Node α → Document α
  | .constant value => .object [("Constant", .ofNumber value)]
  | .variable id => .object [("Variable", .integer id.number)]
  | .unary op arg => .object [("Unary", .object [("arg", arg.toDocument), ("op", .text op.name)])]
  | .binary op lhs rhs =>
    .object [("Binary", .object
      [("lhs", lhs.toDocument), ("op", .text op.name), ("rhs", rhs.toDocument)])]
  | .power base exponent =>
    .object [("Power", .object [("base", base.toDocument), ("exponent", .ofNumber exponent)])]
  | .sum terms => .object [("Sum", .list (terms.map Expr.toDocument))]

/-- Reads a node. Its operands may be any handles, also ones that do not precede it. -/
def Node.ofDocument? (d : Document α) : Option (Node α) := do
  match ← d.variant? with
  | ("Constant", value) => return .constant (← value.number?)
  | ("Variable", id) => return .variable ⟨← id.word?⟩
  | ("Unary", parts) =>
    match ← parts.fields? ["op", "arg"] with
    | [op, arg] => return .unary (← op.name? >>= UnaryOp.ofName?) (← arg.expr?)
    | _ => none
  | ("Binary", parts) =>
    match ← parts.fields? ["op", "lhs", "rhs"] with
    | [op, lhs, rhs] =>
      return .binary (← op.name? >>= BinaryOp.ofName?) (← lhs.expr?) (← rhs.expr?)
    | _ => none
  | ("Power", parts) =>
    match ← parts.fields? ["base", "exponent"] with
    | [base, exponent] => return .power (← base.expr?) (← exponent.number?)
    | _ => none
  | ("Sum", terms) => return .sum (← terms.listOf? Document.expr?)
  | _ => none

def Graph.toDocument (g : Graph α) : Document α :=
  .object [("next_var", .integer g.nextVar), ("nodes", .list (g.nodes.toList.map Node.toDocument))]

def Graph.ofDocument? (d : Document α) : Option (Graph α) := do
  match ← d.parts? ["nodes", "next_var"] with
  | [nodes, nextVar] =>
    return { nodes := (← nodes.listOf? Node.ofDocument?).toArray, nextVar := ← nextVar.word? }
  | _ => none

/-- Replaces a graph by one that is read. When nothing can be read it stays as it is. -/
def Graph.load (d : Document α) : EStateM Unit (Graph α) Unit := do
  match Graph.ofDocument? d with
  | some g => set g
  | none => throw ()

def Var.toDocument (x : Var) : Document α :=
  .object [("expr", x.expr.toDocument), ("id", .integer x.id.number)]

def Var.ofDocument? (d : Document α) : Option Var := do
  match ← d.parts? ["id", "expr"] with
  | [id, expr] => return ⟨⟨← id.word?⟩, ← expr.expr?⟩
  | _ => none

def Problem.toDocument (p : Problem α) : Document α :=
  .object [
    ("constraints", .list (p.constraints.map Expr.toDocument)),
    ("graph", p.graph.toDocument),
    ("objective", p.objective.toDocument),
    ("start", .list (p.start.map .ofNumber)),
    ("variables", .list (p.vars.map Var.toDocument))]

def Problem.ofDocument? (d : Document α) : Option (Problem α) := do
  match ← d.parts? ["graph", "objective", "constraints", "variables", "start"] with
  | [graph, objective, constraints, vars, start] =>
    return {
      graph := ← Graph.ofDocument? graph
      objective := ← objective.expr?
      constraints := ← constraints.listOf? Document.expr?
      vars := ← vars.listOf? Var.ofDocument?
      start := ← start.listOf? Document.number? }
  | _ => none

end Autodiff
