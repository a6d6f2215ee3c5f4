import Autodiff.Proofs.Gradient
import Autodiff.Proofs.GrownValues

namespace Autodiff

/-- Exact arithmetic in which two is not zero, and in which the first two powers of a number are
what they should be. -/
class SquarePowers (α : Type) [ExactScalar α] : Prop where
  two_ne_zero : (Scalar.two : α) ≠ 0
  pow_two (a : α) : Scalar.pow a Scalar.two = a * a
  pow_one (a : α) : Scalar.pow a 1 = a

instance : SquarePowers ℝ where
  two_ne_zero := by
    change (1 + 1 : ℝ) ≠ 0
    norm_num
  pow_two a := by
    change a ^ ((1 : ℝ) + 1) = a * a
    rw [one_add_one_eq_two, Real.rpow_two, pow_two]
  pow_one a := Real.rpow_one a

instance : SquarePowers ℚ where
  two_ne_zero := by
    change (1 + 1 : ℚ) ≠ 0
    norm_num
  pow_two a := by
    have hnum : (1 + 1 : ℚ).num = 2 := by decide +kernel
    change a ^ (1 + 1 : ℚ).num = a * a
    rw [hnum, zpow_two]
  pow_one a := zpow_one a

variable {α : Type} [ExactScalar α]

theorem half_mul_two [SquarePowers α] : (Scalar.half : α) * Scalar.two = 1 :=
  div_mul_cancel₀ 1 SquarePowers.two_ne_zero

namespace Graph

variable {g : Graph α} {env : Nat → Option α} {dir : Nat → α} {a b e : Expr}

theorem tangentAt_constant {i : Nat} {c : α} (hn : g.nodes[i]? = some (.constant c)) :
    g.tangentAt env dir i = 0 := tangentAt_node hn (by simp [Node.operands])

theorem tangentAt_variable {i : Nat} {id : VarId} (hn : g.nodes[i]? = some (.variable id)) :
    g.tangentAt env dir i = dir i := tangentAt_node hn (by simp [Node.operands])

theorem eq_unit_of_beq {op : BinaryOp} {x : α} (hx : (x == op.unit) = true) : x = op.unit :=
  (ExactScalar.beq_iff x op.unit).mp hx

theorem value_unit_left (op : BinaryOp) (y : α) : op.value op.unit y = y := by
  cases op with
  | add => exact zero_add y
  | multiply => exact one_mul y

theorem value_unit_right (op : BinaryOp) (x : α) : op.value x op.unit = x := by
  cases op with
  | add => exact add_zero x
  | multiply => exact mul_one x

theorem IsJoin.valueAt_eq {op : BinaryOp} (h : g.IsJoin op a b e) :
    g.valueAt env e.index = op.value (g.valueAt env a.index) (g.valueAt env b.index) := by
  cases h with
  | folded ha hb he => rw [valueAt_constant ha, valueAt_constant hb, valueAt_constant he]
  | right ha hx he => rw [he, valueAt_constant ha, eq_unit_of_beq hx, value_unit_left]
  | left hb hy he => rw [he, valueAt_constant hb, eq_unit_of_beq hy, value_unit_right]
  | node he ha hb => exact valueAt_node he (by simp [Node.operands, ha, hb])

theorem IsJoin.tangentAt_eq {op : BinaryOp} (h : g.IsJoin op a b e) :
    g.tangentAt env dir e.index =
      (Node.binary op a b).tangent 0 (g.valueAt env) (g.tangentAt env dir) := by
  cases h with
  | folded ha hb he =>
    rw [tangentAt_constant he]
    cases op with
    | add => simp [Node.tangent, tangentAt_constant ha, tangentAt_constant hb]
    | multiply => simp [Node.tangent, tangentAt_constant ha, tangentAt_constant hb]
  | right ha hx he =>
    subst he
    obtain rfl := eq_unit_of_beq hx
    cases op with
    | add => simp [Node.tangent, tangentAt_constant ha]
    | multiply => simp [Node.tangent, tangentAt_constant ha, valueAt_constant ha, BinaryOp.unit]
  | left hb hy he =>
    subst he
    obtain rfl := eq_unit_of_beq hy
    cases op with
    | add => simp [Node.tangent, tangentAt_constant hb]
    | multiply => simp [Node.tangent, tangentAt_constant hb, valueAt_constant hb, BinaryOp.unit]
  | node he ha hb =>
    have hlt : ∀ t ∈ (Node.binary op a b : Node α).operands, t.index < e.index := by
      simp [Node.operands, ha, hb]
    rw [tangentAt_node he hlt]
    cases op with
    | add => rfl
    | multiply => rfl

theorem IsProduct.valueAt_eq (h : g.IsProduct a b e) :
    g.valueAt env e.index = g.valueAt env a.index * g.valueAt env b.index := IsJoin.valueAt_eq h

/-- The product rule. -/
theorem IsProduct.tangentAt_eq (h : g.IsProduct a b e) :
    g.tangentAt env dir e.index = g.valueAt env b.index * g.tangentAt env dir a.index +
      g.valueAt env a.index * g.tangentAt env dir b.index := IsJoin.tangentAt_eq h

theorem two_beq_zero [SquarePowers α] : ((Scalar.two : α) == 0) = false := by
  cases h : (Scalar.two : α) == 0 with
  | false => rfl
  | true => exact absurd ((ExactScalar.beq_iff _ _).mp h) SquarePowers.two_ne_zero

theorem two_beq_one : ((Scalar.two : α) == 1) = false := by
  cases h : (Scalar.two : α) == 1 with
  | false => rfl
  | true =>
    have htwo : (1 : α) + 1 = 1 := (ExactScalar.beq_iff _ _).mp h
    exact absurd (add_eq_left.mp htwo) one_ne_zero

theorem IsPower.valueAt_eq [SquarePowers α] (h : g.IsPower a Scalar.two e) :
    g.valueAt env e.index = g.valueAt env a.index * g.valueAt env a.index := by
  cases h with
  | one hn => cases two_beq_one.symm.trans hn
  | zero hn => cases two_beq_zero.symm.trans hn
  | folded hb hv he =>
    rw [valueAt_constant he, valueAt_constant hb, powerValue_eq_ok hv, SquarePowers.pow_two]
  | node he hb =>
    rw [valueAt_node he (by simp [Node.operands, hb]), Node.result, SquarePowers.pow_two]

theorem IsPower.tangentAt_eq [SquarePowers α] (h : g.IsPower a Scalar.two e) :
    g.tangentAt env dir e.index =
      Scalar.two * g.valueAt env a.index * g.tangentAt env dir a.index := by
  cases h with
  | one hn => cases two_beq_one.symm.trans hn
  | zero hn => cases two_beq_zero.symm.trans hn
  | folded hb hv he => rw [tangentAt_constant he, tangentAt_constant hb, mul_zero]
  | node he hb =>
    have hone : (Scalar.two : α) - 1 = 1 := add_sub_cancel_right 1 1
    rw [tangentAt_node he (by simp [Node.operands, hb]), Node.tangent, two_beq_zero, hone,
      SquarePowers.pow_one]
    rfl

/-- A quantity that constants have in an additive way can be summed over constants and variables
apart. -/
theorem sum_map_parts {f : Nat → α} {k : α →+ α}
    (hk : ∀ i c, g.nodes[i]? = some (.constant c) → f i = k c) (terms : List Expr) :
    (terms.map fun t => f t.index).sum =
      k (g.constantPart terms) + ((g.variablePart terms).map fun t => f t.index).sum := by
  have hpart : ∀ ts : List Expr,
      g.constantPart ts = (ts.filterMap fun t => g.constantAt? t.index).sum := fun ts =>
    List.sum_eq_foldl.symm
  rw [hpart]
  induction terms with
  | nil => simp [variablePart]
  | cons t terms ih =>
    rw [variablePart] at ih ⊢
    rw [List.map_cons, List.sum_cons, ih, List.filterMap_cons, List.filter_cons]
    cases hc : g.constantAt? t.index with
    | none =>
      simp only [Option.isNone_none, ↓reduceIte, List.map_cons, List.sum_cons]
      ring
    | some c =>
      rw [hk t.index c (constantAt?_eq_some.mp hc)]
      simp only [Option.isNone_some, Bool.false_eq_true, ↓reduceIte, List.sum_cons, map_add]
      ring

theorem NoConstantPart.eq_zero {terms : List Expr} (h : g.NoConstantPart terms) :
    g.constantPart terms = 0 := by
  rcases h with hnil | hzero
  · rw [constantPart, hnil]
    rfl
  · exact (ExactScalar.beq_iff _ _).mp (by simpa [bne] using hzero)

/-- What is additive for constants and for sum nodes is additive for whatever stands for a sum. -/
theorem IsSum.map_eq {terms : List Expr} (h : g.IsSum terms e) {f : Nat → α} {k : α →+ α}
    (hk : ∀ i c, g.nodes[i]? = some (.constant c) → f i = k c)
    (hf : ∀ i ts, g.nodes[i]? = some (.sum ts) → (∀ t ∈ ts, t.index < i) →
      f i = (ts.map fun t => f t.index).sum) :
    f e.index = (terms.map fun t => f t.index).sum := by
  have hparts := sum_map_parts hk terms
  cases h with
  | constant hv he => rw [hparts, hv, hk _ _ he, List.map_nil, List.sum_nil, add_zero]
  | single hv hc =>
    rw [hparts, hv, hc.eq_zero, map_zero, zero_add, List.map_singleton, List.sum_singleton]
  | node hc he hlt => rw [hparts, hc.eq_zero, map_zero, zero_add, hf _ _ he hlt]
  | nodeWith hc he hlt =>
    rw [hparts, hf _ _ he hlt, List.map_append, List.sum_append, List.map_singleton,
      List.sum_singleton, hk _ _ hc, add_comm]

theorem total_eq_sum (xs : List α) : Scalar.total xs = xs.sum := by
  have hzero : (-0 : α) = 0 := neg_zero
  rw [Scalar.total, hzero, List.sum_eq_foldl]

theorem IsSum.valueAt_eq {terms : List Expr} (h : g.IsSum terms e) :
    g.valueAt env e.index = (terms.map fun t => g.valueAt env t.index).sum := by
  refine h.map_eq (k := AddMonoidHom.id α) (fun _ _ hn => valueAt_constant hn) fun i ts hn hlt => ?_
  rw [valueAt_node hn hlt, Node.result, total_eq_sum]

theorem IsSum.tangentAt_eq {terms : List Expr} (h : g.IsSum terms e) :
    g.tangentAt env dir e.index = (terms.map fun t => g.tangentAt env dir t.index).sum :=
  h.map_eq (k := 0) (fun _ _ hn => tangentAt_constant hn) fun _ _ hn hlt => tangentAt_node hn hlt

variable {extended : Graph α} {env' : Nat → Option α}

/-- An extended graph differentiates old expressions like the old graph. -/
theorem tangentAt_extend (hg : g.Extends extended) {i : Nat} (hi : i < g.size) (hc : g.Closed i)
    (hold : ∀ j < g.size, env' j = env j) :
    extended.tangentAt env' dir i = g.tangentAt env dir i := by
  induction i using Nat.strongRecOn with
  | ind i ih =>
    have hn : g.nodes[i]? = some g.nodes[i] := Array.getElem?_eq_getElem hi
    have hlt : ∀ e ∈ g.nodes[i].operands, e.index < i := hc i _ (.refl i) hn
    rw [tangentAt_node (hg.node hn) hlt, tangentAt_node hn hlt]
    refine Node.tangent_congr (fun e he => ?_) fun e he => ?_
    · exact valueAt_extend hg (Nat.lt_trans (hlt e he) hi) hold
    · refine ih _ (hlt e he) (Nat.lt_trans (hlt e he) hi) fun j node hr => ?_
      exact hc j node (.step hn he (hlt e he) hr)

end Graph

end Autodiff
