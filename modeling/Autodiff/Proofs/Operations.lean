import Autodiff.Recording
import Autodiff.Proofs.NewVariables
import Autodiff.Proofs.Rebuilding

namespace Autodiff

/-- A scalar operation of a builder, on operands that are named in some way. -/
inductive Operation (α ε : Type) where
  | constant (value : α)
  | binary (op : BinaryOperator) (a b : ε)
  | unary (op : UnaryOperator) (a : ε)
  | pow (base : ε) (exponent : α)
  | powInt (base : ε) (exponent : Int)
  | sum (terms : List ε)

namespace Operation

variable {α ε : Type}

/-- The operands from left to right. -/
def operands : Operation α ε → List ε
  | .constant _ => []
  | .binary _ a b => [a, b]
  | .unary _ a | .pow a _ | .powInt a _ => [a]
  | .sum terms => terms

/-- Calls the builder. -/
def build [Scalar α] : Operation α Expr → Build α Expr
  | .constant value => Build.constant value
  | .binary op a b => op.build a b
  | .unary op a => op.build a
  | .pow base exponent => Build.pow base exponent
  | .powInt base exponent => Build.powInt base exponent
  | .sum terms => Build.sum terms

end Operation

variable {α : Type} [Scalar α]

namespace Graph

variable {g g' : Graph α}

theorem IsUnary.extend (hg : g.Extends g') {op : UnaryOp} {a e : Expr} (h : g.IsUnary op a e) :
    g'.IsUnary op a e := by
  cases h with
  | folded ha hx he => exact .folded (hg.node ha) hx (hg.node he)
  | undone hop ha => exact .undone hop (hg.node ha)
  | node he ha => exact .node (hg.node he) ha

theorem StandsFor.extend (hg : g.Extends g') {node : Node α} {e : Expr}
    (hops : ∀ a ∈ node.operands, a.index < g.size) (h : g.StandsFor e node) :
    g'.StandsFor e node := by
  cases node with
  | constant c => exact hg.node h
  | «variable» id => exact hg.node h
  | unary op arg => exact IsUnary.extend hg h
  | binary op lhs rhs => exact IsJoin.extend hg h
  | power base n => exact IsPower.extend hg h
  | sum terms => exact IsSum.extend hg hops h

/-- An expression stands for what an operation is put together from. -/
def Performs (g : Graph α) (e : Expr) : Operation α Expr → Prop
  | .constant c => g.StandsFor e (.constant c)
  | .binary .add a b => g.StandsFor e (.binary .add a b)
  | .binary .sub a b => ∃ n, g.StandsFor n (.unary .negate b) ∧ g.StandsFor e (.binary .add a n)
  | .binary .mul a b => g.StandsFor e (.binary .multiply a b)
  | .binary .div a b => ∃ r, g.StandsFor r (.power b (-1)) ∧ g.StandsFor e (.binary .multiply a r)
  | .unary .neg a => g.StandsFor e (.unary .negate a)
  | .unary .exp a => g.StandsFor e (.unary .exp a)
  | .unary .log a => g.StandsFor e (.unary .log a)
  | .unary .square a => g.StandsFor e (.power a Scalar.two)
  | .pow base n => g.StandsFor e (.power base n)
  | .powInt base n => g.StandsFor e (.power base (n : α))
  | .sum terms => g.StandsFor e (.sum terms)

/-- An expression of the graph whose nodes come after their operands. -/
abbrev Sound (g : Graph α) (e : Expr) : Prop := g.Confined (fun _ => True) e

omit [Scalar α] in
theorem Sound.of_closed {e : Expr} (he : e.index < g.size) (hc : g.Closed e.index) : g.Sound e :=
  ⟨he, fun i node hr hn => ⟨hc i node hr hn, fun _ _ => trivial⟩⟩

end Graph

namespace Build

open Autodiff.Graph

variable {g : Graph α}

/-- What building leaves behind: an extended graph without new variables, and an expression of
it. -/
structure Leaves (g g' : Graph α) (e : Expr) : Prop where
  extension : g.Extends g'
  sound : g'.Sound e
  no_variable : ∀ (i : Nat) (id : VarId),
    g'.nodes[i]? = some (.variable id) → g.nodes[i]? = some (.variable id)

/-- What would be a node of sound operands can be built. -/
theorem leaves_ofNode (node : Node α) (hvar : ∀ id, node ≠ .variable id)
    (hops : ∀ a ∈ node.operands, g.Sound a) :
    ∃ e g', ofNode node g = .ok e g' ∧ Leaves g g' e ∧ g'.StandsFor e node := by
  obtain ⟨e, g', he⟩ := succeeds_ofNode fun a ha => (hops a ha).lt
  obtain ⟨hext, hstands⟩ := ofNode_spec he
  have hsound : g'.Sound e := hstands.confined hvar fun a ha => (hops a ha).extend hext
  have hnone := MakesNoVariable.of_preserves fun _ => ofNode_preserves hvar
  exact ⟨e, g', he, ⟨hext, hsound, hnone he⟩, hstands⟩

/-- What would be two nodes, where the second has the first for its right operand. -/
theorem leaves_ofNode_binary {node : Node α} (hvar : ∀ id, node ≠ .variable id)
    (hops : ∀ b ∈ node.operands, g.Sound b) (op : BinaryOp) {a : Expr} (ha : g.Sound a) :
    ∃ e g', (ofNode node >>= fun r => ofNode (.binary op a r)) g = .ok e g' ∧ Leaves g g' e ∧
      ∃ r, g'.StandsFor r node ∧ g'.StandsFor e (.binary op a r) := by
  obtain ⟨r, g₁, hr, hleaves, hfirst⟩ := leaves_ofNode node hvar hops
  have hext := hleaves.extension
  have hboth : ∀ x ∈ (Node.binary op a r : Node α).operands, g₁.Sound x := by
    simp only [Node.operands, List.mem_cons, List.not_mem_nil, or_false, forall_eq_or_imp,
      forall_eq]
    exact ⟨ha.extend hext, hleaves.sound⟩
  obtain ⟨e, g₂, he, hleaves', hsecond⟩ := leaves_ofNode (.binary op a r) (by simp) hboth
  have hext' := hleaves'.extension
  refine ⟨e, g₂, bind_eq_ok.mpr ⟨r, g₁, hr, he⟩, ⟨hext.trans hext', hleaves'.sound, ?_⟩, r, ?_,
    hsecond⟩
  · exact fun i id hi => hleaves.no_variable i id (hleaves'.no_variable i id hi)
  · exact hfirst.extend hext' fun b hb => ((hops b hb).extend hext).lt

end Build

open Build in
/-- Every operation on sound operands has an answer, and this stands for the operation. -/
theorem Operation.build_spec {g : Graph α} (op : Operation α Expr)
    (hops : ∀ a ∈ op.operands, g.Sound a) :
    ∃ e g', op.build g = .ok e g' ∧ Leaves g g' e ∧ g'.Performs e op := by
  cases op with
  | constant c => exact leaves_ofNode (.constant c) (by simp) (by simp [Node.operands])
  | binary op a b =>
    have ha := hops a (by simp [operands])
    have hb := hops b (by simp [operands])
    cases op with
    | add => exact leaves_ofNode (.binary .add a b) (by simp) hops
    | mul => exact leaves_ofNode (.binary .multiply a b) (by simp) hops
    | sub =>
      have hneg : ∀ x ∈ (Node.unary .negate b : Node α).operands, g.Sound x := by
        simpa [Node.operands] using hb
      exact leaves_ofNode_binary (by simp) hneg .add ha
    | div =>
      have hpow : ∀ x ∈ (Node.power b (-1) : Node α).operands, g.Sound x := by
        simpa [Node.operands] using hb
      exact leaves_ofNode_binary (by simp) hpow .multiply ha
  | unary op a =>
    cases op with
    | neg => exact leaves_ofNode (.unary .negate a) (by simp) hops
    | exp => exact leaves_ofNode (.unary .exp a) (by simp) hops
    | log => exact leaves_ofNode (.unary .log a) (by simp) hops
    | square => exact leaves_ofNode (.power a Scalar.two) (by simp) hops
  | pow base n => exact leaves_ofNode (.power base n) (by simp) hops
  | powInt base n => exact leaves_ofNode (.power base (n : α)) (by simp) hops
  | sum terms => exact leaves_ofNode (.sum terms) (by simp) hops

end Autodiff
