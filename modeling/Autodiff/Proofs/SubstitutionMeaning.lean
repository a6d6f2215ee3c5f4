import Autodiff.Proofs.OrderedArithmetic
import Autodiff.Proofs.Definedness
import Autodiff.Proofs.Substitution

namespace Autodiff

variable {α : Type}

namespace Graph

variable [OrderedScalar α] {g : Graph α} {env : Nat → Option α} {dir : Nat → α} {a e : Expr}
  {n : α}

theorem IsUnary.valueAt_eq {op : UnaryOp} (hc : g.Closed a.index) (h : g.IsUnary op a e) :
    g.valueAt env e.index = op.result (g.valueAt env a.index) := by
  cases h with
  | folded ha _ he => rw [valueAt_constant he, valueAt_constant ha]
  | undone hop ha =>
    subst hop
    rw [valueAt_node ha (hc _ _ (.refl _) ha)]
    exact (neg_neg _).symm
  | node he ha => exact valueAt_node he (by simp [Node.operands, ha])

theorem IsUnary.tangentAt_eq {op : UnaryOp} (hc : g.Closed a.index) (h : g.IsUnary op a e) :
    g.tangentAt env dir e.index =
      (Node.unary op a).tangent 0 (g.valueAt env) (g.tangentAt env dir) := by
  cases h with
  | folded ha _ he =>
    rw [tangentAt_constant he]
    cases op with
    | negate => simp [Node.tangent, tangentAt_constant ha]
    | exp => simp [Node.tangent, tangentAt_constant ha]
    | log => simp [Node.tangent, tangentAt_constant ha]
  | undone hop ha =>
    subst hop
    rw [Node.tangent, tangentAt_node ha (hc _ _ (.refl _) ha)]
    exact (neg_neg _).symm
  | node he ha =>
    rw [tangentAt_node he (by simp [Node.operands, ha])]
    cases op with
    | _ => rfl

/-- What stands for an operation on an expression has a value where the expression has one in the
domain of the operation. -/
theorem IsUnary.defined_iff {op : UnaryOp} (hc : g.Closed a.index) (h : g.IsUnary op a e) :
    g.Defined env e.index ↔ g.Defined env a.index ∧
      (Node.unary op a).refusal? none (g.valueAt env) = none := by
  cases h with
  | folded ha hx he =>
    refine iff_of_true (defined_constant he) ⟨defined_constant ha, ?_⟩
    cases op with
    | log => rw [Node.refusal?, valueAt_constant ha, if_neg (not_le.mpr (hx rfl))]
    | negate => rfl
    | exp => rfl
  | undone hop ha =>
    subst hop
    rw [defined_node ha (hc _ _ (.refl _) ha)]
    simp [Node.operands, Node.refusal?]
  | node he ha =>
    rw [defined_node he (by simp [Node.operands, ha])]
    cases op with
    | _ => simp [Node.operands, Node.refusal?]

variable [UnitPowers α]

theorem IsPower.valueAt_pow (h : g.IsPower a n e) :
    g.valueAt env e.index = Scalar.pow (g.valueAt env a.index) n := by
  cases h with
  | one hn he => rw [he, (ExactScalar.beq_iff n 1).mp hn, UnitPowers.pow_one]
  | zero hn he => rw [valueAt_constant he, (ExactScalar.beq_iff n 0).mp hn, UnitPowers.pow_zero]
  | folded hb hv he => rw [valueAt_constant he, valueAt_constant hb, powerValue_eq_ok hv]
  | node he hb => exact valueAt_node he (by simp [Node.operands, hb])

theorem IsPower.tangentAt_pow (h : g.IsPower a n e) :
    g.tangentAt env dir e.index =
      (Node.power a n).tangent 0 (g.valueAt env) (g.tangentAt env dir) := by
  cases h with
  | one hn he =>
    have hone : ((1 : α) == 0) = false := by
      rw [Bool.eq_false_iff]
      exact fun h => one_ne_zero ((ExactScalar.beq_iff 1 0).mp h)
    subst he
    rw [(ExactScalar.beq_iff n 1).mp hn, Node.tangent, hone, sub_self, UnitPowers.pow_zero]
    simp
  | zero hn he => rw [tangentAt_constant he, Node.tangent, if_pos hn]
  | folded hb _ he => rw [tangentAt_constant he, Node.tangent, tangentAt_constant hb, mul_zero, ite_self]
  | node he hb => exact tangentAt_node he (by simp [Node.operands, hb])

theorem IsPower.defined_iff (hn : n ≠ 0) (h : g.IsPower a n e) :
    g.Defined env e.index ↔ g.Defined env a.index ∧
      (Node.power a n).refusal? none (g.valueAt env) = none := by
  cases h with
  | one hone he =>
    rw [he, (ExactScalar.beq_iff n 1).mp hone, Node.refusal?, UnitPowers.isInteger_one]
    simp
  | zero hzero => exact absurd ((ExactScalar.beq_iff n 0).mp hzero) hn
  | folded hb hv he =>
    refine iff_of_true (defined_constant he) ⟨defined_constant hb, ?_⟩
    rw [Node.refusal?, valueAt_constant hb]
    unfold powerValue at hv
    split at hv
    next => cases hv
    next hdomain => rw [if_neg hdomain]
  | node he hb =>
    rw [defined_node he (by simp [Node.operands, hb])]
    simp [Node.operands, Node.refusal?]

/-- What stands for a node has the value that the node would have. -/
theorem StandsFor.valueAt_eq {node : Node α} (hvar : ∀ id, node ≠ .variable id)
    (hc : ∀ a ∈ node.operands, g.Closed a.index) (h : g.StandsFor e node) (x : α) :
    g.valueAt env e.index = node.result x (g.valueAt env) := by
  cases node with
  | constant c => exact valueAt_constant h
  | «variable» id => exact absurd rfl (hvar id)
  | unary op arg => exact IsUnary.valueAt_eq (hc arg (by simp [Node.operands])) h
  | binary op lhs rhs => exact IsJoin.valueAt_eq h
  | power base n => exact IsPower.valueAt_pow h
  | sum terms => rw [IsSum.valueAt_eq h, Node.result, total_eq_sum]

theorem StandsFor.tangentAt_eq {node : Node α} (hvar : ∀ id, node ≠ .variable id)
    (hc : ∀ a ∈ node.operands, g.Closed a.index) (h : g.StandsFor e node) (d : α) :
    g.tangentAt env dir e.index = node.tangent d (g.valueAt env) (g.tangentAt env dir) := by
  cases node with
  | constant c => exact tangentAt_constant h
  | «variable» id => exact absurd rfl (hvar id)
  | unary op arg =>
    rw [IsUnary.tangentAt_eq (hc arg (by simp [Node.operands])) h]
    cases op with
    | _ => rfl
  | binary op lhs rhs =>
    rw [IsJoin.tangentAt_eq h]
    cases op with
    | _ => rfl
  | power base n => exact IsPower.tangentAt_pow h
  | sum terms => exact IsSum.tangentAt_eq h

theorem StandsFor.defined_iff {node : Node α} (hvar : ∀ id, node ≠ .variable id)
    (hc : ∀ a ∈ node.operands, g.Closed a.index) (hpow : ∀ base n, node = .power base n → n ≠ 0)
    (h : g.StandsFor e node) (x : Option α) :
    g.Defined env e.index ↔ (∀ a ∈ node.operands, g.Defined env a.index) ∧
      node.refusal? x (g.valueAt env) = none := by
  cases node with
  | constant c => exact iff_of_true (defined_constant h) ⟨by simp [Node.operands], rfl⟩
  | «variable» id => exact absurd rfl (hvar id)
  | unary op arg =>
    rw [IsUnary.defined_iff (hc arg (by simp [Node.operands])) h]
    cases op with
    | _ => simp [Node.operands, Node.refusal?]
  | binary op lhs rhs =>
    rw [IsJoin.defined_iff h]
    simp [Node.operands, Node.refusal?]
  | power base n =>
    rw [IsPower.defined_iff (hpow base n rfl) h]
    simp [Node.operands, Node.refusal?]
  | sum terms =>
    rw [IsSum.defined_iff h]
    simp [Node.operands, Node.refusal?]

end Graph

end Autodiff
