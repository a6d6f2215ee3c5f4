import Autodiff.Proofs.SubstitutionMeaning
import Autodiff.Proofs.Operations

namespace Autodiff

variable {α : Type}

namespace Graph

theorem Reaches.cases_operand {g : Graph α} {i j : Nat} {node : Node α}
    (hn : g.nodes[i]? = some node) (h : g.Reaches i j) :
    j = i ∨ ∃ a ∈ node.operands, g.Reaches a.index j := by
  cases h with
  | refl => exact .inl rfl
  | step hn' ha _ hr =>
    obtain rfl := Option.some.inj (hn.symm.trans hn')
    exact .inr ⟨_, ha, hr⟩

section

variable [Scalar α] {g g' : Graph α} {env : Nat → Option α} {i : Nat} {node : Node α}

/-- What evaluating a node comes to: its value, or the one reason why something that takes part in
it has no value. -/
def Yields (g : Graph α) (env : Nat → Option α) (i : Nat) : Except (Error α) α → Prop
  | .ok x => g.Defined env i ∧ g.valueAt env i = x
  | .error cause => (∃ j, g.Reaches i j ∧ g.errorAt? env j = some cause) ∧
      ∀ j, g.Reaches i j → g.errorAt? env j = none ∨ g.errorAt? env j = some cause

theorem Defined.errorAt?_eq_none (h : g.Defined env i) {j : Nat} (hr : g.Reaches i j) :
    g.errorAt? env j = none := by
  cases hn : g.nodes[j]? with
  | none => simp [errorAt?, hn]
  | some node => exact defined_iff_errorAt?.mp h j node hr hn

theorem Yields.not_defined {cause : Error α} (h : g.Yields env i (.error cause)) :
    ¬g.Defined env i := by
  obtain ⟨⟨j, hr, he⟩, -⟩ := h
  intro hd
  cases he.symm.trans (hd.errorAt?_eq_none hr)

/-- Operands that have values, and a node that has none. -/
theorem yields_refusal (hn : g.nodes[i]? = some node)
    (hops : ∀ a ∈ node.operands, g.Defined env a.index) {cause : Error α}
    (hcause : node.refusal? (env i) (g.valueAt env) = some cause) :
    g.Yields env i (.error cause) := by
  have hi : g.errorAt? env i = some cause := (errorAt?_node hn).trans hcause
  refine ⟨⟨i, .refl i, hi⟩, fun j hr => ?_⟩
  rcases hr.cases_operand hn with rfl | ⟨a, ha, hr⟩
  · exact .inr hi
  · exact .inl ((hops a ha).errorAt?_eq_none hr)

/-- The answer of an evaluation is what the node of the root yields. -/
theorem Yields.evaluate_eq {root : Expr} {vars : List Var} {point : List α}
    {r : Except (Error α) α} (h : g.Yields (assignment vars point) root.index r)
    (hroot : g.Sound root) (hb : g.Binds vars) (hl : vars.length = point.length) :
    g.evaluate root vars point = r.mapError .refused := by
  cases r with
  | ok x => exact (evaluate_eq_ok hroot.lt hroot.closed hb).mpr ⟨hl, h⟩
  | error cause =>
    obtain ⟨⟨j, hr, hj⟩, hall⟩ := h
    obtain ⟨order, horder⟩ := reachable_of_closed hroot.lt hroot.closed
    have ho := reachable_ordered horder
    rw [Graph.evaluate_eq hl horder hb, answer]
    cases hfirst : order.findSome? (g.errorAt? (assignment vars point)) with
    | none =>
      have hnone := List.findSome?_eq_none_iff.mp hfirst j ((ho.mem_iff j).mpr hr)
      cases hj.symm.trans hnone
    | some first =>
      obtain ⟨k, hk, hfound⟩ := List.exists_of_findSome?_eq_some hfirst
      rcases hall k ((ho.mem_iff k).mp hk) with hnone | hsome
      · cases hfound.symm.trans hnone
      · obtain rfl := Option.some.inj (hfound.symm.trans hsome)
        rfl

theorem Yields.extend (hg : g.Extends g') {a : Expr} (ha : g.Sound a) {x : α}
    (h : g.Yields env a.index (.ok x)) : g'.Yields env a.index (.ok x) := by
  refine ⟨(defined_extend hg ha.lt ha.closed fun _ _ => rfl).mpr h.1, ?_⟩
  rw [valueAt_extend hg ha.lt fun _ _ => rfl, h.2]

end

variable [OrderedScalar α] {g : Graph α} {env : Nat → Option α} {dir : Nat → α} {a b e : Expr}
  {n x : α}

theorem yields_constant (hn : g.nodes[e.index]? = some (.constant x)) :
    g.Yields env e.index (.ok x) := ⟨defined_constant hn, valueAt_constant hn⟩

theorem IsUnary.yields {op : UnaryOp} (h : g.IsUnary op a e) (hc : g.Closed a.index)
    (ha : g.Yields env a.index (.ok x)) : g.Yields env e.index (op.value x) := by
  obtain ⟨hdefined, rfl⟩ := ha
  rw [op.value_eq]
  split
  next hlog =>
    obtain ⟨rfl, hx⟩ := hlog
    cases h with
    | folded ha hpos _ =>
      rw [valueAt_constant ha] at hx
      exact absurd (hpos rfl) (not_lt.mpr hx)
    | undone hop => cases hop
    | node he _ =>
      refine yields_refusal he (by simpa [Node.operands] using hdefined) ?_
      rw [Node.refusal?, if_pos hx]
  next hlog =>
    refine ⟨(h.defined_iff hc).mpr ⟨hdefined, ?_⟩, h.valueAt_eq hc⟩
    cases op with
    | log => exact if_neg fun hx => hlog ⟨rfl, hx⟩
    | negate => rfl
    | exp => rfl

/-- A join of a value with whatever the right operand yields. -/
theorem IsJoin.yields {op : BinaryOp} {r : Except (Error α) α} (h : g.IsJoin op a b e)
    (ha : g.Yields env a.index (.ok x)) (hb : g.Yields env b.index r) :
    g.Yields env e.index (r.map (op.value x)) := by
  cases r with
  | ok y => exact ⟨h.defined_iff.mpr ⟨ha.1, hb.1⟩, by rw [h.valueAt_eq, ha.2, hb.2]⟩
  | error cause =>
    cases h with
    | folded _ hconst _ => exact absurd (defined_constant hconst) hb.not_defined
    | right _ _ he => exact he ▸ hb
    | left hconst _ _ => exact absurd (defined_constant hconst) hb.not_defined
    | node he hae hbe =>
      obtain ⟨⟨j, hr, hj⟩, hall⟩ := hb
      refine ⟨⟨j, .step he (by simp [Node.operands]) hbe hr, hj⟩, fun k hk => ?_⟩
      rcases hk.cases_operand he with rfl | ⟨c, hc, hk⟩
      · exact .inl (errorAt?_node he)
      · rcases (by simpa [Node.operands] using hc : c = a ∨ c = b) with rfl | rfl
        · exact .inl (ha.1.errorAt?_eq_none hk)
        · exact hall k hk

theorem IsSum.yields {terms : List Expr} (h : g.IsSum terms e) {v : Expr → α}
    (hterms : ∀ t ∈ terms, g.Yields env t.index (.ok (v t))) :
    g.Yields env e.index (.ok (terms.map v).sum) := by
  refine ⟨h.defined_iff.mpr fun t ht => (hterms t ht).1, ?_⟩
  rw [h.valueAt_eq, List.map_congr_left fun t ht => (hterms t ht).2]

variable [UnitPowers α]

theorem IsPower.yields (h : g.IsPower a n e) (hn : n ≠ 0) (ha : g.Yields env a.index (.ok x)) :
    g.Yields env e.index (powerValue x n) := by
  obtain ⟨hdefined, rfl⟩ := ha
  by_cases hdomain : (!Scalar.isInteger n && decide (g.valueAt env a.index ≤ 0)) = true
  · rw [powerValue, if_pos hdomain]
    cases h with
    | one hone =>
      rw [(ExactScalar.beq_iff n 1).mp hone, UnitPowers.isInteger_one] at hdomain
      cases hdomain
    | zero hzero => exact absurd ((ExactScalar.beq_iff n 0).mp hzero) hn
    | folded hb hv _ =>
      rw [valueAt_constant hb] at hdomain
      rw [powerValue, if_pos hdomain] at hv
      cases hv
    | node he _ =>
      refine yields_refusal he (by simpa [Node.operands] using hdefined) ?_
      rw [Node.refusal?, if_pos hdomain]
  · rw [powerValue, if_neg hdomain]
    exact ⟨(h.defined_iff hn).mpr ⟨hdefined, if_neg hdomain⟩, h.valueAt_pow⟩

end Graph

variable [OrderedScalar α]

namespace Operation

/-- The value of an operation without any folding, in terms of the values of its operands. -/
def value (v : Expr → α) : Operation α Expr → Except (Error α) α
  | .constant c => .ok c
  | .binary .add a b => .ok (v a + v b)
  | .binary .sub a b => .ok (v a - v b)
  | .binary .mul a b => .ok (v a * v b)
  | .binary .div a b => (powerValue (v b) (-1)).map (v a * ·)
  | .unary .neg a => .ok (-v a)
  | .unary .exp a => .ok (Scalar.exp (v a))
  | .unary .log a => if v a ≤ 0 then .error (.logDomain (v a)) else .ok (Scalar.log (v a))
  | .unary .square a => powerValue (v a) Scalar.two
  | .pow base n => if n = 0 then .ok 1 else powerValue (v base) n
  | .powInt base n => if n = 0 then .ok 1 else powerValue (v base) (n : α)
  | .sum terms => .ok (terms.map v).sum

/-- The chain rule: the derivative of an operation in a direction, in terms of the values of its
operands and their derivatives. -/
def derivative (v t : Expr → α) : Operation α Expr → α
  | .constant _ => 0
  | .binary .add a b => t a + t b
  | .binary .sub a b => t a - t b
  | .binary .mul a b => v b * t a + v a * t b
  | .binary .div a b =>
    Scalar.pow (v b) (-1) * t a - v a * (Scalar.pow (v b) (-1 - 1) * t b)
  | .unary .neg a => -t a
  | .unary .exp a => Scalar.exp (v a) * t a
  | .unary .log a => t a / v a
  | .unary .square a => 2 * v a * t a
  | .pow base n => if n = 0 then 0 else n * Scalar.pow (v base) (n - 1) * t base
  | .powInt base n => if n = 0 then 0 else n * Scalar.pow (v base) (n - 1) * t base
  | .sum terms => (terms.map t).sum

/-- A power with exponent zero, whose base does not matter. -/
def ZeroPower : Operation α Expr → Prop
  | .pow _ n => n = 0
  | .powInt _ n => n = 0
  | _ => False

theorem derivative_congr {v w t u : Expr → α} {op : Operation α Expr}
    (hv : ∀ a ∈ op.operands, v a = w a) (ht : ∀ a ∈ op.operands, t a = u a) :
    op.derivative v t = op.derivative w u := by
  cases op with
  | constant c => rfl
  | binary op a b =>
    cases op <;> simp only [derivative, hv a (by simp [operands]), hv b (by simp [operands]),
      ht a (by simp [operands]), ht b (by simp [operands])]
  | unary op a =>
    cases op <;> simp only [derivative, hv a (by simp [operands]), ht a (by simp [operands])]
  | pow base n => simp only [derivative, hv base (by simp [operands]), ht base (by simp [operands])]
  | powInt base n =>
    simp only [derivative, hv base (by simp [operands]), ht base (by simp [operands])]
  | sum terms =>
    have hmap : terms.map t = terms.map u := List.map_congr_left ht
    rw [derivative, hmap, derivative]

theorem two_eq : (Scalar.two : α) = 2 := one_add_one_eq_two

/-- Building a power with exponent zero gives a constant. -/
theorem build_zeroPower {g g' : Graph α} {op : Operation α Expr} {e : Expr} (hz : op.ZeroPower)
    (h : op.build g = .ok e g') : g'.nodes[e.index]? = some (.constant 1) := by
  have hpow : ∀ base, Build.pow base (0 : α) g = .ok e g' →
      g'.nodes[e.index]? = some (.constant 1) := by
    intro base h
    obtain ⟨node, g₁, -, h⟩ := Build.bind_eq_ok.mp h
    have hone : ¬((0 : α) == 1) = true := fun h => zero_ne_one ((ExactScalar.beq_iff 0 1).mp h)
    have hzero : ((0 : α) == 0) = true := (ExactScalar.beq_iff 0 0).mpr rfl
    rw [if_neg hone, if_pos hzero] at h
    exact Build.node_of_push h
  cases op with
  | pow base n =>
    obtain rfl : n = 0 := hz
    exact hpow base h
  | powInt base n =>
    obtain rfl : n = 0 := hz
    have hcast : ((0 : Int) : α) = 0 := Int.cast_zero
    rw [build, Build.powInt, hcast] at h
    exact hpow base h
  | _ => exact hz.elim

end Operation

namespace Graph

variable [UnitPowers α] {g : Graph α} {env : Nat → Option α} {dir : Nat → α} {e : Expr}
  {op : Operation α Expr}

theorem Performs.yields (h : g.Performs e op) (hz : ¬op.ZeroPower) {v : Expr → α}
    (hops : ∀ a ∈ op.operands, g.Closed a.index ∧ g.Yields env a.index (.ok (v a))) :
    g.Yields env e.index (op.value v) := by
  cases op with
  | constant c => exact yields_constant h
  | binary op a b =>
    obtain ⟨-, ha⟩ := hops a (by simp [Operation.operands])
    obtain ⟨hc, hb⟩ := hops b (by simp [Operation.operands])
    cases op with
    | add => exact IsJoin.yields h ha hb
    | mul => exact IsJoin.yields h ha hb
    | sub =>
      obtain ⟨n, hn, hsum⟩ := h
      have hneg : g.Yields env n.index (.ok (-v b)) := IsUnary.yields hn hc hb
      rw [Operation.value, sub_eq_add_neg]
      exact IsJoin.yields hsum ha hneg
    | div =>
      obtain ⟨r, hr, hproduct⟩ := h
      have hpow := IsPower.yields hr (neg_ne_zero.mpr one_ne_zero) hb
      exact IsJoin.yields hproduct ha hpow
  | unary op a =>
    obtain ⟨hc, ha⟩ := hops a (by simp [Operation.operands])
    cases op with
    | neg => exact IsUnary.yields h hc ha
    | exp => exact IsUnary.yields h hc ha
    | log => exact IsUnary.yields h hc ha
    | square =>
      have htwo : (Scalar.two : α) ≠ 0 := Operation.two_eq (α := α) ▸ two_ne_zero
      exact IsPower.yields h htwo ha
  | pow base n =>
    obtain ⟨-, hbase⟩ := hops base (by simp [Operation.operands])
    have hn : n ≠ 0 := hz
    rw [Operation.value, if_neg hn]
    exact IsPower.yields h hn hbase
  | powInt base n =>
    obtain ⟨-, hbase⟩ := hops base (by simp [Operation.operands])
    have hn : n ≠ 0 := hz
    rw [Operation.value, if_neg hn]
    exact IsPower.yields h (Int.cast_ne_zero.mpr hn) hbase
  | sum terms => exact IsSum.yields h fun t ht => (hops t ht).2

/-- The derivative of what stands for an operation is the one of the chain rule. -/
theorem Performs.tangentAt_eq (h : g.Performs e op) (hc : ∀ a ∈ op.operands, g.Closed a.index) :
    g.tangentAt env dir e.index =
      op.derivative (fun a => g.valueAt env a.index) fun a => g.tangentAt env dir a.index := by
  have hpow : ∀ {base : Expr} {n : α}, g.IsPower base n e → g.tangentAt env dir e.index =
      if n = 0 then 0
      else n * Scalar.pow (g.valueAt env base.index) (n - 1) * g.tangentAt env dir base.index := by
    intro base n h
    rw [h.tangentAt_pow, Node.tangent]
    exact if_congr (ExactScalar.beq_iff n 0) rfl rfl
  cases op with
  | constant c => exact tangentAt_constant h
  | binary op a b =>
    have hb := hc b (by simp [Operation.operands])
    cases op with
    | add => exact IsJoin.tangentAt_eq h
    | mul => exact IsProduct.tangentAt_eq h
    | sub =>
      obtain ⟨n, hn, hsum⟩ := h
      have hneg : g.tangentAt env dir n.index = -g.tangentAt env dir b.index :=
        IsUnary.tangentAt_eq hb hn
      have hadd : g.tangentAt env dir e.index =
          g.tangentAt env dir a.index + g.tangentAt env dir n.index := IsJoin.tangentAt_eq hsum
      rw [hadd, hneg, Operation.derivative, sub_eq_add_neg]
    | div =>
      obtain ⟨r, hr, hproduct⟩ := h
      have hvalue : g.valueAt env r.index = Scalar.pow (g.valueAt env b.index) (-1) :=
        IsPower.valueAt_pow hr
      have htangent : g.tangentAt env dir r.index =
          -1 * Scalar.pow (g.valueAt env b.index) (-1 - 1) * g.tangentAt env dir b.index := by
        have hne : ¬((-1 : α) == 0) = true := fun h =>
          neg_ne_zero.mpr one_ne_zero ((ExactScalar.beq_iff _ _).mp h)
        rw [IsPower.tangentAt_pow hr, Node.tangent, if_neg hne]
      rw [IsProduct.tangentAt_eq hproduct, hvalue, htangent, Operation.derivative]
      ring
  | unary op a =>
    have ha := hc a (by simp [Operation.operands])
    cases op with
    | neg => exact IsUnary.tangentAt_eq ha h
    | exp => exact IsUnary.tangentAt_eq ha h
    | log => exact IsUnary.tangentAt_eq ha h
    | square =>
      have htwo : (2 : α) - 1 = 1 := by norm_num
      rw [hpow h, Operation.two_eq, if_neg two_ne_zero, htwo, UnitPowers.pow_one]
      rfl
  | pow base n => exact hpow h
  | powInt base n =>
    rw [hpow h, Operation.derivative]
    exact if_congr Int.cast_eq_zero rfl rfl
  | sum terms => exact IsSum.tangentAt_eq h

/-- What stands for an operation, other than a power with exponent zero, has a value only where all
operands have one. -/
theorem Performs.defined_operands (h : g.Performs e op) (hz : ¬op.ZeroPower)
    (hc : ∀ a ∈ op.operands, g.Closed a.index) (hd : g.Defined env e.index) :
    ∀ a ∈ op.operands, g.Defined env a.index := by
  cases op with
  | constant c => simp [Operation.operands]
  | binary op a b =>
    have hb := hc b (by simp [Operation.operands])
    suffices hboth : g.Defined env a.index ∧ g.Defined env b.index by
      simpa [Operation.operands] using hboth
    cases op with
    | add => exact (IsJoin.defined_iff h).mp hd
    | mul => exact (IsJoin.defined_iff h).mp hd
    | sub =>
      obtain ⟨n, hn, hsum⟩ := h
      exact ((IsJoin.defined_iff hsum).mp hd).imp_right fun hneg =>
        ((IsUnary.defined_iff hb hn).mp hneg).1
    | div =>
      obtain ⟨r, hr, hproduct⟩ := h
      exact ((IsJoin.defined_iff hproduct).mp hd).imp_right fun hpow =>
        ((IsPower.defined_iff (neg_ne_zero.mpr one_ne_zero) hr).mp hpow).1
  | unary op a =>
    have ha := hc a (by simp [Operation.operands])
    suffices harg : g.Defined env a.index by simpa [Operation.operands] using harg
    cases op with
    | neg => exact ((IsUnary.defined_iff ha h).mp hd).1
    | exp => exact ((IsUnary.defined_iff ha h).mp hd).1
    | log => exact ((IsUnary.defined_iff ha h).mp hd).1
    | square =>
      have htwo : (Scalar.two : α) ≠ 0 := Operation.two_eq (α := α) ▸ two_ne_zero
      exact ((IsPower.defined_iff htwo h).mp hd).1
  | pow base n =>
    have hn : n ≠ 0 := hz
    simpa [Operation.operands] using ((IsPower.defined_iff hn h).mp hd).1
  | powInt base n =>
    have hn : n ≠ 0 := hz
    simpa [Operation.operands] using ((IsPower.defined_iff (Int.cast_ne_zero.mpr hn) h).mp hd).1
  | sum terms => exact (IsSum.defined_iff h).mp hd

end Graph

/-- The answer of an operation behaves like the operation without any folding. Here `g` is the graph
before the operation and `g'` the graph after it. -/
structure Operation.Transparent (op : Operation α Expr) (g g' : Graph α) (e : Expr) : Prop where
  value : ∀ vars point v, g.Binds vars → vars.length = point.length →
    (∀ a ∈ op.operands, g.evaluate a vars point = .ok (v a)) →
    g'.evaluate e vars point = (op.value v).mapError .refused
  gradient : ∀ vars point v (partials : Expr → List α) r, g.Binds vars →
    vars.length = point.length →
    (∀ a ∈ op.operands, g.evaluate a vars point = .ok (v a) ∧
      g.differentiate a vars point = .ok (partials a)) →
    op.value v = .ok r →
    g'.differentiate e vars point = .ok ((List.range vars.length).map fun k =>
      op.derivative v fun a => (partials a).getD k 0)
  strict : ¬op.ZeroPower → ∀ vars point, ∀ a ∈ op.operands, ∀ cause,
    g.evaluate a vars point = .error cause → ∃ cause', g'.evaluate e vars point = .error cause'
  zeroPower : op.ZeroPower → ∀ vars point, g.Binds vars → vars.length = point.length →
    g'.evaluate e vars point = .ok 1

namespace Operation

open Autodiff.Graph Build

variable {g g' : Graph α} {op : Operation α Expr} {e : Expr} {vars : List Var} {point : List α}

theorem evaluate_zeroPower (hz : op.ZeroPower) (h : op.build g = .ok e g')
    (hleaves : Leaves g g' e) (hb : g.Binds vars) (hl : vars.length = point.length) :
    g'.evaluate e vars point = .ok 1 :=
  (yields_constant (build_zeroPower hz h)).evaluate_eq hleaves.sound (hb.extend hleaves.extension) hl

theorem value_zeroPower (hz : op.ZeroPower) (v : Expr → α) : op.value v = .ok 1 := by
  cases op with
  | pow base n => exact if_pos hz
  | powInt base n => exact if_pos hz
  | _ => exact hz.elim

variable [UnitPowers α]

theorem evaluate_build (h : op.build g = .ok e g') (hops : ∀ a ∈ op.operands, g.Sound a)
    (hleaves : Leaves g g' e) (hperforms : g'.Performs e op) (hb : g.Binds vars)
    (hl : vars.length = point.length) {v : Expr → α}
    (hv : ∀ a ∈ op.operands, g.evaluate a vars point = .ok (v a)) :
    g'.evaluate e vars point = (op.value v).mapError .refused := by
  by_cases hz : op.ZeroPower
  · rw [evaluate_zeroPower hz h hleaves hb hl, value_zeroPower hz]
    rfl
  · have hext := hleaves.extension
    have hoperand : ∀ a ∈ op.operands, g'.Closed a.index ∧
        g'.Yields (assignment vars point) a.index (.ok (v a)) := by
      intro a ha
      have hsound := hops a ha
      have hyields := ((evaluate_eq_ok hsound.lt hsound.closed hb).mp (hv a ha)).2
      exact ⟨(hsound.extend hext).closed, Yields.extend hext hsound hyields⟩
    exact (hperforms.yields hz hoperand).evaluate_eq hleaves.sound (hb.extend hext) hl

theorem differentiate_build (h : op.build g = .ok e g') (hops : ∀ a ∈ op.operands, g.Sound a)
    (hleaves : Leaves g g' e) (hperforms : g'.Performs e op) (hb : g.Binds vars)
    (hl : vars.length = point.length) {v : Expr → α} {partials : Expr → List α} {r : α}
    (hv : ∀ a ∈ op.operands, g.evaluate a vars point = .ok (v a) ∧
      g.differentiate a vars point = .ok (partials a)) (hr : op.value v = .ok r) :
    g'.differentiate e vars point = .ok ((List.range vars.length).map fun k =>
      op.derivative v fun a => (partials a).getD k 0) := by
  have hext := hleaves.extension
  have hvalue := evaluate_build h hops hleaves hperforms hb hl fun a ha => (hv a ha).1
  rw [hr] at hvalue
  rw [differentiate_of_evaluate hvalue]
  refine congrArg Except.ok (List.ext_getElem (by simp) fun k hk _ => ?_)
  have hk' : k < vars.length := by simpa using hk
  rw [List.getElem_map, List.getElem_map, List.getElem_range,
    hperforms.tangentAt_eq fun a ha => ((hops a ha).extend hext).closed]
  refine derivative_congr (fun a ha => ?_) fun a ha => ?_
  · have hsound := hops a ha
    rw [valueAt_extend hext hsound.lt fun _ _ => rfl]
    exact ((evaluate_eq_ok hsound.lt hsound.closed hb).mp (hv a ha).1).2.2
  · have hsound := hops a ha
    have hpartials := differentiate_of_evaluate (hv a ha).1
    rw [tangentAt_extend hext hsound.lt hsound.closed fun _ _ => rfl,
      Except.ok.inj ((hv a ha).2.symm.trans hpartials)]
    simp [hk']

theorem evaluate_error (hz : ¬op.ZeroPower) (hops : ∀ a ∈ op.operands, g.Sound a)
    (hleaves : Leaves g g' e) (hperforms : g'.Performs e op) {a : Expr} (ha : a ∈ op.operands)
    {cause : Failure α} (hcause : g.evaluate a vars point = .error cause) :
    ∃ cause', g'.evaluate e vars point = .error cause' := by
  cases hresult : g'.evaluate e vars point with
  | error cause' => exact ⟨cause', rfl⟩
  | ok x =>
    obtain ⟨s, hs, -⟩ := bind_eq_ok.mp hresult
    obtain ⟨-, hl, -, hcomplete⟩ := Sweep.complete_of_forward hs
    have hb' := hcomplete.binds
    have hb : g.Binds vars := ⟨fun x hx => hleaves.no_variable _ _ (hb'.node_eq x hx), hb'.nodup⟩
    have hext := hleaves.extension
    have hsound := hops a ha
    have hroot := (evaluate_eq_ok hleaves.sound.lt hleaves.sound.closed hb').mp hresult
    have hdefined := hperforms.defined_operands hz
      (fun a ha => ((hops a ha).extend hext).closed) hroot.2.1 a ha
    rw [defined_extend hext hsound.lt hsound.closed fun _ _ => rfl] at hdefined
    have hok := (evaluate_eq_ok hsound.lt hsound.closed hb).mpr ⟨hl, hdefined, rfl⟩
    cases hcause.symm.trans hok

/-- Folding is invisible: every operation on operands whose nodes come after their own operands, as
all nodes of a well-formed graph do, has an answer, and this answer has the value, the errors and the
gradient of the operation without any folding. A quotient is the product with the reciprocal power
when minus one counts as a whole number. -/
theorem folding_invisible (g : Graph α) (op : Operation α Expr)
    (hops : ∀ a ∈ op.operands, a.index < g.size ∧ g.Closed a.index) :
    (∃ e g', op.build g = .ok e g' ∧ g.Extends g' ∧ e.index < g'.size ∧ op.Transparent g g' e) ∧
    (Scalar.isInteger (-1 : α) = true → ∀ v a b,
      (binary .div a b : Operation α Expr).value v = .ok (v a * Scalar.pow (v b) (-1))) := by
  have hsound : ∀ a ∈ op.operands, g.Sound a := fun a ha => .of_closed (hops a ha).1 (hops a ha).2
  obtain ⟨e, g', he, hleaves, hperforms⟩ := op.build_spec hsound
  refine ⟨⟨e, g', he, hleaves.extension, hleaves.sound.lt, ?_, ?_, ?_, ?_⟩, fun hwhole v a b => ?_⟩
  · exact fun vars point v hb hl hv => evaluate_build he hsound hleaves hperforms hb hl hv
  · exact fun vars point v partials r hb hl hv hr =>
      differentiate_build he hsound hleaves hperforms hb hl hv hr
  · exact fun hz vars point a ha cause hcause =>
      evaluate_error hz hsound hleaves hperforms ha hcause
  · exact fun hz vars point hb hl => evaluate_zeroPower hz he hleaves hb hl
  · rw [value, powerValue, hwhole]
    rfl

/-- Two constants that cancel. -/
def cancelling : Graph ℚ := ⟨#[.variable ⟨0⟩, .constant 2, .constant (-2)], 1⟩

theorem folding_invisible_cancelling :
    ∃ e g', (sum [⟨0⟩, ⟨1⟩, ⟨0⟩, ⟨2⟩] : Operation ℚ Expr).build cancelling = .ok e g' ∧
      g'.evaluate e [⟨⟨0⟩, ⟨0⟩⟩] [3] = .ok 6 ∧ g'.differentiate e [⟨⟨0⟩, ⟨0⟩⟩] [3] = .ok [2] := by
  have hnodes : ∀ (i : Nat) (node : Node ℚ), cancelling.nodes[i]? = some node →
      node.operands = [] := by
    intro i node hn
    match i with
    | 0 | 1 | 2 =>
      obtain rfl : _ = node := by simpa [cancelling] using hn
      rfl
    | i + 3 => simp [cancelling] at hn
  have hclosed : ∀ i, cancelling.Closed i := by
    intro i j node _ hn
    simp [hnodes j node hn]
  have hbinds : cancelling.Binds [⟨⟨0⟩, ⟨0⟩⟩] := ⟨by simp [cancelling], by simp⟩
  let v : Expr → ℚ := fun a => [3, 2, -2].getD a.index 0
  let partials : Expr → List ℚ := fun a => [[1], [0], [0]].getD a.index []
  have hoperands : ∀ a ∈ (sum [⟨0⟩, ⟨1⟩, ⟨0⟩, ⟨2⟩] : Operation ℚ Expr).operands,
      cancelling.evaluate a [⟨⟨0⟩, ⟨0⟩⟩] [3] = .ok (v a) ∧
        cancelling.differentiate a [⟨⟨0⟩, ⟨0⟩⟩] [3] = .ok (partials a) := by
    intro a ha
    rcases (by simpa [operands] using ha : a = ⟨0⟩ ∨ a = ⟨1⟩ ∨ a = ⟨0⟩ ∨ a = ⟨2⟩) with
      rfl | rfl | rfl | rfl <;>
      exact ⟨toOption_eq_some.mp (by decide +kernel), toOption_eq_some.mp (by decide +kernel)⟩
  have hlt : ∀ a ∈ (sum [⟨0⟩, ⟨1⟩, ⟨0⟩, ⟨2⟩] : Operation ℚ Expr).operands,
      a.index < cancelling.size := by
    simp only [operands]
    decide
  obtain ⟨⟨e, g', he, -, -, htransparent⟩, -⟩ := folding_invisible cancelling
    (sum [⟨0⟩, ⟨1⟩, ⟨0⟩, ⟨2⟩]) fun a ha => ⟨hlt a ha, hclosed a.index⟩
  refine ⟨e, g', he, ?_, ?_⟩
  · rw [htransparent.value _ _ v hbinds rfl fun a ha => (hoperands a ha).1]
    exact toOption_eq_some.mp (by decide +kernel)
  · rw [htransparent.gradient _ _ v partials 6 hbinds rfl hoperands
      (toOption_eq_some.mp (by decide +kernel))]
    exact congrArg Except.ok (by decide +kernel)

end Operation

end Autodiff
