import Mathlib.Algebra.BigOperators.Ring.List
import Autodiff.Proofs.ExactArithmetic

namespace Autodiff

variable {α : Type} [ExactScalar α]

namespace Node

/-- The derivative of a node in a direction, in terms of the values and the derivatives of its
operands, where `d` is the derivative of a variable. -/
def tangent (d : α) (v t : Nat → α) : Node α → α
  | .constant _ => 0
  | .variable _ => d
  | .unary .negate arg => -t arg.index
  | .unary .exp arg => Scalar.exp (v arg.index) * t arg.index
  | .unary .log arg => t arg.index / v arg.index
  | .binary .add lhs rhs => t lhs.index + t rhs.index
  | .binary .multiply lhs rhs => v rhs.index * t lhs.index + v lhs.index * t rhs.index
  | .power base n =>
    if n == 0 then 0 else n * Scalar.pow (v base.index) (n - 1) * t base.index
  | .sum terms => (terms.map fun e => t e.index).sum

theorem tangent_congr {d : α} {v w t u : Nat → α} {node : Node α}
    (hv : ∀ e ∈ node.operands, v e.index = w e.index)
    (ht : ∀ e ∈ node.operands, t e.index = u e.index) : node.tangent d v t = node.tangent d w u := by
  cases node with
  | unary op arg =>
    cases op <;> simp only [tangent, hv arg (by simp [operands]), ht arg (by simp [operands])]
  | binary op lhs rhs =>
    cases op <;> simp only [tangent, hv lhs (by simp [operands]), hv rhs (by simp [operands]),
      ht lhs (by simp [operands]), ht rhs (by simp [operands])]
  | power base n => simp only [tangent, hv base (by simp [operands]), ht base (by simp [operands])]
  | sum terms =>
    have hm : terms.map (fun e => t e.index) = terms.map fun e => u e.index :=
      List.map_congr_left ht
    simp only [tangent, hm]
  | _ => rfl

/-- What the operands gain from an adjoint `a`, weighted with their tangents, is the adjoint
weighted with the tangent of the node. -/
theorem gains_weighted (v t : Nat → α) (x a : α) (node : Node α) (hnv : ∀ id, node ≠ .variable id)
    (d : α) :
    ((node.gains v (node.result x v) a).map fun s => s.2 * t s.1).sum = a * node.tangent d v t := by
  cases node with
  | constant c => simp [gains, tangent]
  | «variable» id => exact absurd rfl (hnv id)
  | unary op arg =>
    cases op with
    | negate =>
      simp only [gains, UnaryOp.slope, tangent, List.map_cons, List.map_nil, List.sum_singleton]
      ring
    | exp =>
      simp only [gains, UnaryOp.slope, result, UnaryOp.result, tangent, List.map_cons,
        List.map_nil, List.sum_singleton]
      ring
    | log =>
      simp only [gains, UnaryOp.slope, tangent, List.map_cons, List.map_nil, List.sum_singleton]
      ring
  | binary op lhs rhs =>
    cases op with
    | add =>
      simp only [gains, BinaryOp.slopes, tangent, List.map_cons, List.map_nil, List.sum_cons,
        List.sum_nil]
      ring
    | multiply =>
      simp only [gains, BinaryOp.slopes, tangent, List.map_cons, List.map_nil, List.sum_cons,
        List.sum_nil]
      ring
  | power base n =>
    simp only [gains, powerSlope, tangent, List.map_cons, List.map_nil, List.sum_singleton]
    split
    next => ring
    next => ring
  | sum terms =>
    simp only [gains, tangent, List.map_map, Function.comp_def]
    rw [List.sum_map_mul_left]

end Node

theorem sum_indicator {l : List Nat} (hl : l.Nodup) (c : Nat → α) (k : Nat) :
    (l.map fun i => if i = k then c i else 0).sum = if k ∈ l then c k else 0 := by
  induction l with
  | nil => simp
  | cons i l ih =>
    obtain ⟨hi, hl'⟩ := List.nodup_cons.mp hl
    rw [List.map_cons, List.sum_cons, ih hl']
    by_cases hik : i = k
    · subst hik
      simp [hi]
    · have hki : k ≠ i := fun he => hik he.symm
      simp [hik, hki]

theorem sum_credit {todo : List Nat} (hn : todo.Nodup) (t : Nat → α) {k : Nat} (hk : k ∈ todo)
    (x : α) (f : Nat → α) :
    (todo.map fun j => credit f k x j * t j).sum = (todo.map fun j => f j * t j).sum + x * t k := by
  have hpoint : ∀ j, credit f k x j * t j = f j * t j + if j = k then x * t j else 0 := by
    intro j
    unfold credit
    split
    next => ring
    next => ring
  have hsum := sum_indicator hn (fun j => x * t j) k
  rw [if_pos hk] at hsum
  simp only [hpoint, List.sum_map_add, hsum]

theorem sum_creditAll {todo : List Nat} (hn : todo.Nodup) (t : Nat → α) (shares : List (Nat × α))
    (hmem : ∀ s ∈ shares, s.1 ∈ todo) (f : Nat → α) :
    (todo.map fun j => creditAll f shares j * t j).sum =
      (todo.map fun j => f j * t j).sum + (shares.map fun s => s.2 * t s.1).sum := by
  induction shares generalizing f with
  | nil => simp [creditAll]
  | cons s shares ih =>
    rw [creditAll_cons, ih (fun s' hs' => hmem s' (by simp [hs'])),
      sum_credit hn t (hmem s (by simp)), List.map_cons, List.sum_cons]
    ring

namespace Graph

/-- The derivative of a node in the direction that gives the variable nodes the derivatives `dir`. -/
def tangentAt (g : Graph α) (env : Nat → Option α) (dir : Nat → α) : Nat → α :=
  g.recursion 0 fun i node t => node.tangent (dir i) (g.valueAt env) t

variable {g : Graph α} {env : Nat → Option α} {dir : Nat → α} {root : Nat} {order : List Nat}

theorem tangentAt_node {i : Nat} {node : Node α} (hn : g.nodes[i]? = some node)
    (hlt : ∀ e ∈ node.operands, e.index < i) :
    g.tangentAt env dir i = node.tangent (dir i) (g.valueAt env) (g.tangentAt env dir) := by
  rw [tangentAt, recursion_node hn]
  exact Node.tangent_congr (fun _ _ => rfl) fun e he => if_pos (hlt e he)

/-- The derivative of a node, if it is a variable. -/
def seedAt (g : Graph α) (dir : Nat → α) (i : Nat) : α :=
  match g.nodes[i]? with
  | some (.variable _) => dir i
  | _ => 0

/-- One node passes its part of the weighted sum on to its operands. -/
theorem sum_passOn {todo : List Nat} (hnodup : todo.Nodup) {i : Nat} {node : Node α}
    (hn : g.nodes[i]? = some node) (hlt : ∀ e ∈ node.operands, e.index < i)
    (hmem : ∀ e ∈ node.operands, e.index ∈ todo) (env : Nat → Option α) (dir f : Nat → α) :
    f i * g.tangentAt env dir i + (todo.map fun j => f j * g.tangentAt env dir j).sum =
      f i * g.seedAt dir i +
        (todo.map fun j => g.passOn env f i j * g.tangentAt env dir j).sum := by
  rw [passOn_node hn]
  by_cases hzero : (f i == 0) = true
  · rw [if_pos hzero, (ExactScalar.beq_iff _ _).mp hzero, zero_mul, zero_mul]
  · rw [if_neg hzero]
    by_cases hv : ∃ id, node = .variable id
    · obtain ⟨id, rfl⟩ := hv
      rw [tangentAt_node hn hlt]
      simp only [Node.tangent, seedAt, hn, Node.gains, creditAll, List.foldl_nil]
    · have hnv : ∀ id, node ≠ .variable id := fun id he => hv ⟨id, he⟩
      have hseed : g.seedAt dir i = 0 := by
        cases node with
        | «variable» id => exact absurd rfl (hnv id)
        | _ => simp only [seedAt, hn]
      have hplaces : ∀ s ∈ node.gains (g.valueAt env) (g.valueAt env i) (f i), s.1 ∈ todo := by
        intro s hs
        obtain ⟨e, he, heq⟩ := Node.gains_operand hs
        exact heq ▸ hmem e he
      rw [sum_creditAll hnodup _ _ hplaces, valueAt_node hn hlt,
        Node.gains_weighted _ _ _ _ _ hnv (dir i), ← tangentAt_node hn hlt, hseed]
      ring

/-- While adjoints are passed on, the sum of all adjoints weighted with the tangents turns into the
sum of the adjoints of the variables weighted with their own derivatives. -/
theorem sum_foldl_passOn (ho : g.Ordered root order) (todo rest : List Nat)
    (hsplit : todo.reverse ++ rest = order) (env : Nat → Option α) (dir f : Nat → α) :
    (todo.map fun i => f i * g.tangentAt env dir i).sum =
      (todo.map fun i => todo.foldl (g.passOn env) f i * g.seedAt dir i).sum := by
  induction todo generalizing rest f with
  | nil => rfl
  | cons i todo ih =>
    have hsplit' : todo.reverse ++ i :: rest = order := by simpa using hsplit
    have hmem : i ∈ order := by simp [← hsplit']
    obtain ⟨node, hn⟩ := ho.node_exists hmem
    have hbefore : ∀ e ∈ node.operands, e.index ∈ todo := fun e he =>
      List.mem_reverse.mp (ho.operand_before hsplit' hn he)
    have hlt : ∀ e ∈ node.operands, e.index < i := fun e he => ho.operand_lt hmem hn he
    have hnodup : todo.Nodup := by
      have hs := ho.sorted
      rw [← hsplit', List.pairwise_append] at hs
      exact List.nodup_reverse.mp (hs.1.imp fun h => Nat.ne_of_lt h)
    have hown : ∀ j ∈ i :: todo, ∀ n, g.nodes[j]? = some n → ∀ e ∈ n.operands, e.index ≠ i := by
      intro j hj n hjn e he
      rcases List.mem_cons.mp hj with rfl | hj
      · have := ho.operand_lt hmem hjn he
        omega
      · have hji := ho.lt_of_before hsplit' (List.mem_reverse.mpr hj)
        have := ho.operand_lt (by simp [← hsplit', hj]) hjn he
        omega
    have hfinal : (i :: todo).foldl (g.passOn env) f i = f i := foldl_passOn_of_notMem _ hown
    have hstep := sum_passOn hnodup hn hlt hbefore env dir f
    rw [List.map_cons, List.sum_cons, hstep, ih (i :: rest) hsplit', List.map_cons, List.sum_cons,
      hfinal, List.foldl_cons]

/-- The direction in which only one node changes. -/
def towards (x : Nat) (i : Nat) : α := if i = x then 1 else 0

theorem adjoints_eq_tangentAt (ho : g.Ordered root order) {x : Nat} {id : VarId}
    (hx : g.nodes[x]? = some (.variable id)) :
    g.adjoints env root order x = g.tangentAt env (towards x) root := by
  let dir : Nat → α := towards x
  have hnodup : order.reverse.Nodup :=
    List.nodup_reverse.mpr (ho.sorted.imp fun h => Nat.ne_of_lt h)
  have hsum := sum_foldl_passOn ho order.reverse [] (by simp) env dir
    fun i => if i = root then 1 else 0
  have hleft : (order.reverse.map fun i =>
      (if i = root then (1 : α) else 0) * g.tangentAt env dir i).sum =
        g.tangentAt env dir root := by
    simp only [ite_mul, one_mul, zero_mul]
    rw [sum_indicator hnodup, if_pos (List.mem_reverse.mpr ho.root_mem)]
  have hseed : ∀ i, g.seedAt dir i = if i = x then 1 else 0 := by
    intro i
    by_cases hi : i = x
    · subst hi
      simp [seedAt, hx, dir, towards]
    · simp only [seedAt, dir, towards, if_neg hi]
      split <;> rfl
  change g.adjoints env root order x = g.tangentAt env dir root
  rw [hleft] at hsum
  rw [hsum]
  simp only [hseed, mul_ite, mul_one, mul_zero]
  rw [sum_indicator hnodup]
  by_cases hmem : x ∈ order
  · rw [if_pos (List.mem_reverse.mpr hmem)]
    rfl
  · rw [if_neg fun h => hmem (List.mem_reverse.mp h)]
    exact adjoints_of_notMem ho hmem

end Graph

/-- The gradient that a complete sweep gathers consists of the derivatives in the directions of the
variables. -/
theorem Sweep.gradient_eq_map_tangentAt {g : Graph α} {vars : List Var} {point : List α}
    {s : Sweep α} (h : s.Complete g vars point) :
    s.gradient g vars.length = .ok (vars.map fun x =>
      g.tangentAt (assignment vars point) (Graph.towards x.expr.index) s.root.index) := by
  have hadjoint : ∀ x ∈ vars, g.adjoints (assignment vars point) s.root.index s.order x.expr.index =
      g.tangentAt (assignment vars point) (Graph.towards x.expr.index) s.root.index := fun x hx =>
    Graph.adjoints_eq_tangentAt h.ordered (h.binds.node_eq x hx)
  rw [Sweep.gradient_eq h, List.map_congr_left hadjoint]

/-- Wherever an expression has a value, it has a gradient. -/
theorem Graph.differentiate_of_evaluate {g : Graph α} {root : Expr} {vars : List Var}
    {point : List α} {v : α} (h : g.evaluate root vars point = .ok v) :
    g.differentiate root vars point = .ok (vars.map fun x =>
      g.tangentAt (assignment vars point) (Graph.towards x.expr.index) root.index) := by
  obtain ⟨s, hs, -⟩ := bind_eq_ok.mp h
  obtain ⟨hroot, -, -, hc⟩ := Sweep.complete_of_forward hs
  rw [Graph.differentiate, hs, ok_bind, Sweep.gradient_eq_map_tangentAt hc, hroot]

/-- Wherever an expression has a value, its gradient consists of its derivatives in the directions
of the variables, and the variables that it does not depend on get zero. -/
theorem gradient_eq_tangents {g : Graph α} {root : Expr} {vars : List Var} {point : List α} {v : α}
    (h : g.evaluate root vars point = .ok v) :
    let env := assignment vars point
    let gradient := vars.map fun x => g.tangentAt env (Graph.towards x.expr.index) root.index
    v = g.valueAt env root.index ∧ g.differentiate root vars point = .ok gradient ∧
      g.valueAndGradient root vars point = .ok (v, gradient) ∧
      ∀ (k : Nat) (x : Var), vars[k]? = some x → ¬g.Reaches root.index x.expr.index →
        gradient[k]? = some 0 := by
  intro env gradient
  obtain ⟨s, hs, hv⟩ := bind_eq_ok.mp h
  obtain ⟨hroot, -, -, hc⟩ := Sweep.complete_of_forward hs
  have hgradient := Sweep.gradient_eq_map_tangentAt hc
  rw [hroot] at hgradient
  have hvalue := hc.value_eq
  rw [hroot] at hvalue
  refine ⟨?_, Graph.differentiate_of_evaluate h, ?_, fun k x hk hx => ?_⟩
  · exact Except.ok.inj (hv.symm.trans hvalue)
  · rw [Graph.valueAndGradient, hs, ok_bind, hv, ok_bind, hgradient]
    rfl
  · have hmem : x.expr.index ∉ s.order := fun hm =>
      hx (hroot ▸ (hc.ordered.mem_iff x.expr.index).mp hm)
    have hnode := hc.binds.node_eq x (List.mem_of_getElem? hk)
    have hzero : g.tangentAt env (Graph.towards x.expr.index) s.root.index = 0 := by
      rw [← Graph.adjoints_eq_tangentAt hc.ordered hnode]
      exact Graph.adjoints_of_notMem hc.ordered hmem
    rw [hroot] at hzero
    simp only [gradient, List.getElem?_map, hk, Option.map_some, hzero]

/-- A square that is used twice in a sum. -/
def squaresGraph (α : Type) : Graph α :=
  ⟨#[.variable ⟨0⟩, .binary .multiply ⟨0⟩ ⟨0⟩, .sum [⟨1⟩, ⟨1⟩]], 1⟩

theorem gradient_eq_tangents_squares :
    (squaresGraph ℝ).evaluate ⟨2⟩ [⟨⟨0⟩, ⟨0⟩⟩] [3] = .ok (Scalar.total [3 * 3, 3 * 3]) ∧
      (squaresGraph ℝ).differentiate ⟨2⟩ [⟨⟨0⟩, ⟨0⟩⟩] [3] = .ok [12] := by
  have h : (squaresGraph ℝ).evaluate ⟨2⟩ [⟨⟨0⟩, ⟨0⟩⟩] [3] = .ok (Scalar.total [3 * 3, 3 * 3]) := rfl
  let env : Nat → Option ℝ := assignment [⟨⟨0⟩, ⟨0⟩⟩] [3]
  have hx : (squaresGraph ℝ).nodes[0]? = some (.variable ⟨0⟩) := rfl
  have hm : (squaresGraph ℝ).nodes[1]? = some (.binary .multiply ⟨0⟩ ⟨0⟩) := rfl
  have hs : (squaresGraph ℝ).nodes[2]? = some (.sum [⟨1⟩, ⟨1⟩]) := rfl
  have hv : (squaresGraph ℝ).valueAt env 0 = 3 := Graph.valueAt_node hx (by simp [Node.operands])
  have hone : (squaresGraph ℝ).tangentAt env (Graph.towards 0) 0 = 1 := by
    rw [Graph.tangentAt_node hx (by simp [Node.operands])]
    simp only [Node.tangent, Graph.towards, ↓reduceIte]
  have hsix : (squaresGraph ℝ).tangentAt env (Graph.towards 0) 1 = 6 := by
    rw [Graph.tangentAt_node hm (by simp [Node.operands])]
    simp only [Node.tangent, hv, hone]
    norm_num
  have htwelve : (squaresGraph ℝ).tangentAt env (Graph.towards 0) 2 = 12 := by
    rw [Graph.tangentAt_node hs (by simp [Node.operands])]
    simp only [Node.tangent, List.map_cons, List.map_nil, List.sum_cons, List.sum_nil, hsix]
    norm_num
  exact ⟨h, htwelve ▸ (gradient_eq_tangents h).2.1⟩

end Autodiff
