import Autodiff.Proofs.Rebuilding

namespace Autodiff

/-- Arithmetic in which two is a whole number, so that every number has a square. -/
class WholeSquares (α : Type) [Scalar α] : Prop where
  isInteger_two : Scalar.isInteger (Scalar.two : α) = true

instance : WholeSquares Float where
  isInteger_two := by decide +kernel

instance : WholeSquares Float32 where
  isInteger_two := by decide +kernel

namespace Graph

variable {α : Type} [Scalar α] {g : Graph α} {env : Nat → Option α} {i : Nat} {node : Node α}
  {a e : Expr}

/-- Every node that takes part in a node has a value. -/
def Defined (g : Graph α) (env : Nat → Option α) (i : Nat) : Prop :=
  g.Throughout (fun j node => node.refusal? (env j) (g.valueAt env) = none) i

theorem defined_node (hn : g.nodes[i]? = some node) (hlt : ∀ e ∈ node.operands, e.index < i) :
    g.Defined env i ↔ (∀ e ∈ node.operands, g.Defined env e.index) ∧
      node.refusal? (env i) (g.valueAt env) = none := by
  rw [and_comm]
  exact throughout_node hn hlt

theorem defined_constant {c : α} (hn : g.nodes[i]? = some (.constant c)) : g.Defined env i :=
  (throughout_constant hn).mpr rfl

theorem defined_iff_errorAt? :
    g.Defined env i ↔ ∀ j node, g.Reaches i j → g.nodes[j]? = some node → g.errorAt? env j = none := by
  refine forall₄_congr fun j node _ hn => ?_
  rw [errorAt?_node hn]

theorem defined_extend {g' : Graph α} {env' : Nat → Option α} (hg : g.Extends g') (hi : i < g.size)
    (hc : g.Closed i) (hold : ∀ j < g.size, env' j = env j) :
    g'.Defined env' i ↔ g.Defined env i := by
  have hsame : ∀ j node, g.Reaches i j → g.nodes[j]? = some node →
      g'.errorAt? env' j = g.errorAt? env j := fun j node hr hn =>
    errorAt?_extend hg hn (hc j node hr hn) hold
  rw [defined_iff_errorAt?, defined_iff_errorAt?]
  constructor
  · intro h j node hr hn
    rw [← hsame j node hr hn]
    exact h j node (hr.extend hg) (hg.node hn)
  · intro h j node hr hn
    have hr' := hr.retract hg hi
    rw [hg.kept j (Nat.lt_of_le_of_lt hr'.le hi)] at hn
    rw [hsame j node hr' hn]
    exact h j node hr' hn

/-- Where an expression can be evaluated, and which value it has there. -/
theorem evaluate_eq_ok {root : Expr} {vars : List Var} {point : List α} {v : α}
    (hroot : root.index < g.size) (hc : g.Closed root.index) (hb : g.Binds vars) :
    g.evaluate root vars point = .ok v ↔ vars.length = point.length ∧
      g.Defined (assignment vars point) root.index ∧
      g.valueAt (assignment vars point) root.index = v := by
  obtain ⟨order, horder⟩ := reachable_of_closed hroot hc
  have ho := reachable_ordered horder
  by_cases hl : vars.length = point.length
  · have hdefined : (∀ j ∈ order, g.errorAt? (assignment vars point) j = none) ↔
        g.Defined (assignment vars point) root.index := by
      rw [defined_iff_errorAt?]
      refine forall_congr' fun j => ?_
      rw [ho.mem_iff]
      refine ⟨fun h node hr _ => h hr, fun h hr => ?_⟩
      obtain ⟨node, hn⟩ := ho.node_exists ((ho.mem_iff j).mpr hr)
      exact h node hr hn
    rw [evaluate_eq hl horder hb, answer_eq_ok, hdefined]
    simp [hl]
  · have herror : g.evaluate root vars point =
        .error (.refused (.lengthMismatch vars.length point.length)) := by
      simp [evaluate, Sweep.forward, hl]
    simp [herror, hl]

theorem IsJoin.defined_iff {op : BinaryOp} {b : Expr} (h : g.IsJoin op a b e) :
    g.Defined env e.index ↔ g.Defined env a.index ∧ g.Defined env b.index := by
  cases h with
  | folded ha hb he =>
    exact iff_of_true (defined_constant he) ⟨defined_constant ha, defined_constant hb⟩
  | right ha _ he => simp [he, defined_constant ha]
  | left hb _ he => simp [he, defined_constant hb]
  | node he ha hb =>
    rw [defined_node he (by simp [Node.operands, ha, hb])]
    simp [Node.operands, Node.refusal?]

theorem IsSum.defined_iff {terms : List Expr} (h : g.IsSum terms e) :
    g.Defined env e.index ↔ ∀ t ∈ terms, g.Defined env t.index := by
  rw [forall_terms fun t c => defined_constant]
  cases h with
  | constant hv he => simp [hv, defined_constant he]
  | single hv _ => simp [hv]
  | node _ he hlt =>
    rw [defined_node he hlt]
    simp [Node.operands, Node.refusal?]
  | nodeWith hc he hlt =>
    rw [defined_node he hlt]
    simp [Node.operands, Node.refusal?, defined_constant hc, or_imp, forall_and]

/-- A square is defined wherever its base is. -/
theorem IsPower.defined_square [WholeSquares α] (h : g.IsPower a Scalar.two e)
    (ha : g.Defined env a.index) : g.Defined env e.index := by
  cases h with
  | one _ he => exact he ▸ ha
  | zero _ he => exact defined_constant he
  | folded _ _ he => exact defined_constant he
  | node he hlt =>
    rw [defined_node he (by simp [Node.operands, hlt])]
    simp [Node.operands, Node.refusal?, WholeSquares.isInteger_two, ha]

end Graph

end Autodiff
