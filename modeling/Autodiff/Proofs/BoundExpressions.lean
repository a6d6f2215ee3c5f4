import Autodiff.Proofs.ReducedGraphs
import Autodiff.Proofs.RoundedArithmetic
import Autodiff.Proofs.SubstitutionAgreement

namespace Autodiff

variable {α β : Type}

/-- Numbers with a single zero, to which all numbers but the undefined ones can be compared. -/
class SingleZero (α : Type) [Scalar α] : Prop where
  neg_zero : (-0 : α) = 0
  pos_of_not_le (a : α) : Scalar.isNaN a = false → ¬a ≤ 0 → 0 < a

/-- Rounding leaves these laws, where it does not tell zero from its negative. -/
theorem SingleZero.of_rounded [Scalar α] [RoundedScalar α] (h : (-0 : α) = 0) : SingleZero α where
  neg_zero := h
  pos_of_not_le a ha := RoundedScalar.lt_of_not_le RoundedScalar.defined_zero
    (RoundedScalar.defined_of_isNaN a ha)

instance [OrderedScalar α] [PositiveRoots α] : SingleZero α := .of_rounded neg_zero

namespace Graph

variable [Scalar α] {g : Graph α} {env : Nat → Option α} {i : Nat} {node : Node α}

/-- Every operand is a constant that is not undefined. -/
def OnConstants (g : Graph α) (v : Nat → α) (node : Node α) : Prop :=
  ∀ a ∈ node.operands, g.nodes[a.index]? = some (.constant (v a.index)) ∧
    Scalar.isNaN (v a.index) = false

theorem OnConstants.constantAt? {v : Nat → α} (h : g.OnConstants v node) {a : Expr}
    (ha : a ∈ node.operands) : g.constantAt? a.index = some (v a.index) :=
  constantAt?_eq_some.mpr (h a ha).1

/-- Where a power has a value, it is worked out. -/
theorem powerValue_of_refusal {base : Expr} {n : α} {x : Option α} {v : Nat → α}
    (h : (Node.power base n).refusal? x v = none) :
    powerValue (v base.index) n = .ok (Scalar.pow (v base.index) n) := by
  rw [Node.refusal?] at h
  unfold powerValue
  split at h
  next => cases h
  next hdomain => exact if_neg hdomain

variable [SingleZero α]

/-- Where a logarithm of a defined number has a value, the number is positive. -/
theorem pos_of_refusal {arg : Expr} {x : Option α} {v : Nat → α}
    (h : (Node.unary .log arg : Node α).refusal? x v = none)
    (hdefined : Scalar.isNaN (v arg.index) = false) : 0 < v arg.index := by
  refine SingleZero.pos_of_not_le _ hdefined fun hle => ?_
  rw [Node.refusal?, if_pos hle] at h
  cases h

/-- In a graph that was built, an operation on constants has no value, since otherwise it would
have been worked out. -/
theorem WellFormed.leaf_of_onConstants (hg : g.WellFormed) (hr : g.Reduced)
    (hn : g.nodes[i]? = some node) {x : Option α} {v : Nat → α} (hops : g.OnConstants v node)
    (hvalue : node.refusal? x v = none) :
    (∃ c, node = .constant c) ∨ ∃ id, node = .variable id := by
  have hfolded := hg.folded i node hn
  have hleft := hr i node hn
  cases node with
  | constant c => exact .inl ⟨c, rfl⟩
  | «variable» id => exact .inr ⟨id, rfl⟩
  | unary op arg =>
    have harg := hops.constantAt? (a := arg) (by simp [Node.operands])
    cases op with
    | negate => cases harg.symm.trans hfolded
    | exp => cases harg.symm.trans hfolded
    | log =>
      obtain ⟨hconst, hdefined⟩ := hops arg (by simp [Node.operands])
      obtain ⟨node, hnode, hnot⟩ := hleft
      obtain rfl := Option.some.inj (hconst.symm.trans hnode)
      exact absurd (pos_of_refusal hvalue hdefined) (hnot _ rfl)
  | binary op lhs rhs =>
    have hl := hops.constantAt? (a := lhs) (by simp [Node.operands])
    have hr := hops.constantAt? (a := rhs) (by simp [Node.operands])
    rcases hfolded with hnone | hnone
    · cases hl.symm.trans hnone
    · cases hr.symm.trans hnone
  | power base n =>
    obtain ⟨hconst, -⟩ := hops base (by simp [Node.operands])
    obtain ⟨node, hnode, hnot⟩ := hleft
    obtain rfl := Option.some.inj (hconst.symm.trans hnode)
    exact absurd (powerValue_of_refusal hvalue) (hnot _ _ rfl)
  | sum terms =>
    obtain ⟨hlen, hinit, -⟩ := hfolded
    rcases terms with _ | ⟨t, _ | ⟨u, rest⟩⟩
    · simp at hlen
    · simp at hlen
    · have ht := hops.constantAt? (a := t) (by simp [Node.operands])
      cases ht.symm.trans (hinit t (by simp))

end Graph

namespace Build

open Autodiff.Graph

variable [Scalar α] {g g' : Graph α} {e : Expr} {v : Nat → α}

omit [Scalar α] in
theorem lookup_bind_of_constant {f : Node α → Build α β} {a : Expr} {c : α}
    (ha : g.nodes[a.index]? = some (.constant c)) : (lookup a >>= f) g = f (.constant c) g := by
  have hrun : lookup a g = .ok (.constant c) g := lookup_eq_ok.mpr ⟨rfl, ha⟩
  simp only [Bind.bind, EStateM.bind, hrun]

theorem sum_of_constants {terms : List Expr}
    (hterms : ∀ t ∈ terms, g.constantAt? t.index = some (v t.index))
    (h : sum terms g = .ok e g') :
    g'.nodes[e.index]? = some (.constant ((terms.map fun t => v t.index).foldl (· + ·) 0)) := by
  obtain ⟨nodes, g₁, hnodes, h⟩ := bind_eq_ok.mp h
  obtain ⟨rfl, -, hconstants, hkept⟩ := nodes_of_mapM_lookup hnodes
  have hall : (terms.filterMap fun t => g.constantAt? t.index) = terms.map fun t => v t.index := by
    rw [← List.filterMap_eq_map]
    exact List.filterMap_congr hterms
  have hnone : g.variablePart terms = [] := by
    rw [variablePart, List.filter_eq_nil_iff]
    intro t ht
    simp [hterms t ht]
  simp only [hconstants, hkept, hall, hnone] at h
  exact node_of_push h

variable [SingleZero α]

/-- What would be a node on constants is worked out to its value, if it has one. -/
theorem ofNode_of_onConstants {node : Node α} (hvar : ∀ id, node ≠ .variable id)
    (hpow : ∀ base n, node = .power base n → (n == 0) = false ∧ (n == 1) = false)
    (hops : g.OnConstants v node) {x : Option α} (hvalue : node.refusal? x v = none)
    (h : ofNode node g = .ok e g') (y : α) :
    g'.nodes[e.index]? = some (.constant (node.result y v)) := by
  cases node with
  | constant c => exact node_of_push h
  | «variable» id => exact absurd rfl (hvar id)
  | unary op arg =>
    obtain ⟨harg, hdefined⟩ := hops arg (by simp [Node.operands])
    cases op with
    | negate =>
      rw [ofNode, neg, lookup_bind_of_constant harg] at h
      exact node_of_push h
    | exp =>
      rw [ofNode, exp, lookup_bind_of_constant harg] at h
      exact node_of_push h
    | log =>
      rw [ofNode, log, lookup_bind_of_constant harg] at h
      dsimp only at h
      rw [if_pos (pos_of_refusal hvalue hdefined)] at h
      exact node_of_push h
  | binary op lhs rhs =>
    obtain ⟨hl, -⟩ := hops lhs (by simp [Node.operands])
    obtain ⟨hr, -⟩ := hops rhs (by simp [Node.operands])
    rw [ofNode, join, lookup_bind_of_constant hl, lookup_bind_of_constant hr] at h
    exact node_of_push h
  | power base n =>
    obtain ⟨hbase, -⟩ := hops base (by simp [Node.operands])
    obtain ⟨hzero, hone⟩ := hpow base n rfl
    rw [ofNode, pow, lookup_bind_of_constant hbase] at h
    simp only [hzero, hone, Bool.false_eq_true, ↓reduceIte, Node.constant?, Option.map_some,
      powerValue_of_refusal hvalue] at h
    exact node_of_push h
  | sum terms =>
    rw [Node.result, Scalar.total, SingleZero.neg_zero]
    exact sum_of_constants (fun t ht => hops.constantAt? ht) h

end Build

namespace Graph

variable [Scalar α]

/-- Every node that takes part in a node has a value, and none of these is undefined. -/
def Computed (g : Graph α) (env : Nat → Option α) (i : Nat) : Prop :=
  g.Throughout (fun j node => node.refusal? (env j) (g.valueAt env) = none ∧
    Scalar.isNaN (g.valueAt env j) = false) i

/-- The expression has the value at a point, and on the way to it no value is undefined. -/
structure Computes (g : Graph α) (e : Expr) (vars : List Var) (point : List α) (v : α) :
    Prop where
  evaluate : g.evaluate e vars point = .ok v
  defined : ∀ j w, g.Reaches e.index j → g.evaluate ⟨j⟩ vars point = .ok w →
    Scalar.isNaN w = false

variable {g : Graph α} {e : Expr} {vars : List Var} {point : List α} {v : α}

theorem Computed.defined {env : Nat → Option α} {i : Nat} (h : g.Computed env i)
    (hi : i < g.size) : Scalar.isNaN (g.valueAt env i) = false :=
  (h i g.nodes[i] (.refl i) (Array.getElem?_eq_getElem hi)).2

theorem Computes.fits (h : g.Computes e vars point v) :
    e.index < g.size ∧ g.Binds vars ∧ vars.length = point.length := by
  obtain ⟨s, hs, -⟩ := bind_eq_ok.mp h.evaluate
  obtain ⟨-, hlen, horder, hc⟩ := Sweep.complete_of_forward hs
  exact ⟨(reachable_ordered horder).root_lt, hc.binds, hlen⟩

theorem Computes.computed (hg : g.WellFormed) (h : g.Computes e vars point v) :
    g.Computed (assignment vars point) e.index ∧ g.valueAt (assignment vars point) e.index = v := by
  have hclosed (k : Nat) : g.Closed k := fun j node _ hn => hg.operand_lt j node hn
  obtain ⟨he, hb, hlen⟩ := h.fits
  obtain ⟨-, hdefined, hv⟩ := (evaluate_eq_ok he (hclosed _) hb).mp h.evaluate
  refine ⟨fun j node hj hn => ⟨hdefined j node hj hn, h.defined j _ hj ?_⟩, hv⟩
  refine (evaluate_eq_ok (size_of_node hn) (hclosed j) hb).mpr ⟨hlen, ?_, rfl⟩
  exact fun k node' hk => hdefined k node' (hj.trans hk)

end Graph

namespace Translation

open Autodiff.Graph

variable [Scalar α] [SingleZero α] {g : Graph α} {vars : List Var} {values : List α}

/-- A substitution turns all nodes whose values it fixes into constants with these values. -/
theorem folding (hg : g.WellFormed) (hr : g.Reduced) :
    Translation g vars values fun i h e => Located g vars i h e ∧
      (g.Computed (assignment vars values) i →
        h.nodes[e.index]? = some (.constant (g.valueAt (assignment vars values) i))) where
  owned h := h.1.confined.lt
  extend h hext := ⟨(located g vars values).extend h.1 hext, fun hc => hext.node (h.2 hc)⟩
  replaced := by
    intro i id k c h e hn hp hc he
    refine ⟨(located g vars values).replaced hn hp hc he, fun _ => ?_⟩
    rw [valueAt_node hn (by simp [Node.operands]), assignment, hp, Option.bind_some, hc]
    exact he
  kept := by
    intro i node h hn hext hp hops
    have hlt : ∀ a ∈ node.operands, a.index < i := fun a ha => (hops a ha).1
    refine ⟨(located g vars values).kept hn hext hp fun a ha => ⟨hlt a ha, (hops a ha).2.1⟩, ?_⟩
    intro hc
    obtain ⟨⟨hvalue, -⟩, hbelow⟩ := (throughout_node hn hlt).mp hc
    have hconstants : g.OnConstants (g.valueAt (assignment vars values)) node := by
      intro a ha
      have hold := Nat.lt_trans (hlt a ha) (size_of_node hn)
      rw [← hext.kept _ hold]
      exact ⟨(hops a ha).2.2 (hbelow a ha), Computed.defined (hbelow a ha) hold⟩
    rcases hg.leaf_of_onConstants hr hn hconstants hvalue with ⟨c, rfl⟩ | ⟨id, rfl⟩
    · rw [valueAt_node hn hlt]
      exact hext.node hn
    · -- A variable that is not replaced has no value.
      rw [Node.refusal?, assignment, hp] at hvalue
      cases hvalue
  rebuilt := by
    intro i node h h' e f hn hvar hops hother he
    have hlt : ∀ a ∈ node.operands, a.index < i := fun a ha => (hops a ha).1
    refine ⟨(located g vars values).rebuilt hn hvar (fun a ha => ⟨hlt a ha, (hops a ha).2.1⟩) hother
      he, fun hc => ?_⟩
    obtain ⟨⟨hvalue, -⟩, hbelow⟩ := (throughout_node hn hlt).mp hc
    have himage := fun a ha => (hops a ha).2.2 (hbelow a ha)
    have hsame : ∀ a ∈ node.operands, h.valueAt (assignment vars values) (f ⟨a.index⟩).index =
        g.valueAt (assignment vars values) a.index := fun a ha =>
      valueAt_node (himage a ha) (by simp [Node.operands])
    have hconstants : h.OnConstants (h.valueAt (assignment vars values)) (node.relocate f) := by
      rw [OnConstants, Node.operands_relocate, List.forall_mem_map]
      intro a ha
      have hold := Nat.lt_trans (hlt a ha) (size_of_node hn)
      rw [hsame a ha]
      exact ⟨himage a ha, Computed.defined (hbelow a ha) hold⟩
    have hpow : ∀ base n, node.relocate f = .power base n → (n == 0) = false ∧ (n == 1) = false := by
      intro base n heq
      obtain ⟨b, rfl⟩ := Node.power_of_relocate heq
      exact hg.folded i _ hn
    have hvalue' := (Node.refusal?_relocate f _ _ node).trans
      ((Node.refusal?_congr rfl hsame).trans hvalue)
    have hfolded := Build.ofNode_of_onConstants (Node.relocate_ne_variable hvar f) hpow hconstants
      hvalue' he ((assignment vars values i).getD 0)
    rwa [Node.result_relocate, Node.result_congr hsame, ← valueAt_node hn hlt] at hfolded

end Translation

open Build

variable [Scalar α] [SingleZero α]

/-- In a graph that was built, an expression with a value becomes a constant, whatever else there is
in the expression that it takes part in. -/
theorem Graph.Computes.folds {g : Graph α} (hwf : g.WellFormed) (hr : g.Reduced) {root : Expr}
    {vars : List Var} {values : List α} {i : Nat} {v : α} (hv : g.Computes ⟨i⟩ vars values v)
    (hi : g.Reaches root.index i) :
    ∃ image e c g', images root vars values g = .ok image g' ∧
      substitute root vars values g = .ok e g' ∧ image[root.index]? = some e ∧
      image[i]? = some c ∧ g'.nodes[c.index]? = some (.constant v) := by
  obtain ⟨hlt, hb, hlen⟩ := hv.fits
  obtain ⟨hc, hvalue⟩ := hv.computed hwf
  have hroot : root.index < g.size := by
    cases hi with
    | refl => exact hlt
    | step hn => exact size_of_node hn
  obtain ⟨image, e, g', himages, hrun, he, -, hall⟩ :=
    (Translation.folding hwf hr).images_spec hb hlen hroot
      fun j node _ hn => hwf.operand_lt j node hn
  obtain ⟨c, hc', -, hfolded⟩ := hall i hi
  exact ⟨image, e, c, g', himages, hrun, he, hc', hvalue ▸ hfolded hc⟩

namespace Workspace

/-- What a substitution leaves no choice about becomes a constant. If all variables of an expression
that was built are replaced and it has a value, with nothing undefined on the way, the answer is a
constant node with this value. The same is true of the image of every expression below the one that
the substitution is made in, where other variables may stay free. -/
theorem bound_expressions_fold (steps : List (Step α)) (name : String) (root : Expr)
    (vars : List Var) (values : List α) :
    let g := (after steps).graphAt name
    (∀ v, g.Computes root vars values v → ∃ e g', substitute root vars values g = .ok e g' ∧
      g'.nodes[e.index]? = some (.constant v)) ∧
    ∀ i v, g.Reaches root.index i → g.Computes ⟨i⟩ vars values v →
      ∃ image e c g', images root vars values g = .ok image g' ∧
        substitute root vars values g = .ok e g' ∧ image[root.index]? = some e ∧
        image[i]? = some c ∧ g'.nodes[c.index]? = some (.constant v) := by
  intro g
  have hwf : g.WellFormed := after_wellFormed steps name
  have hr : g.Reduced := after_reduced steps name
  refine ⟨fun v hv => ?_, fun i v hi hv => hv.folds hwf hr hi⟩
  obtain ⟨image, e, c, g', -, hrun, he, hc, hfolded⟩ := hv.folds hwf hr (.refl root.index)
  obtain rfl := Option.some.inj (he.symm.trans hc)
  exact ⟨e, g', hrun, hfolded⟩

/-- The product of a variable and the square of another one increased by one. -/
def scaledSquare : List (Step ℚ) :=
  [.call "f" (.newVars 2),
    .scope "f" [.binary .mul (.expr ⟨1⟩) (.pow (.binary .add (.expr ⟨0⟩) (.number 1)) 2)]]

theorem bound_expressions_fold_scaledSquare :
    (∃ e g', substitute ⟨5⟩ [⟨⟨0⟩, ⟨0⟩⟩, ⟨⟨1⟩, ⟨1⟩⟩] [2, 3] ((after scaledSquare).graphAt "f") =
      .ok e g' ∧ g'.nodes[e.index]? = some (.constant 27)) ∧
    ∃ image c g', images ⟨5⟩ [⟨⟨0⟩, ⟨0⟩⟩] [2] ((after scaledSquare).graphAt "f") = .ok image g' ∧
      image[4]? = some c ∧ g'.nodes[c.index]? = some (.constant 9) := by
  have hgraph : (after scaledSquare).graphAt "f" = ⟨#[.variable ⟨0⟩, .variable ⟨1⟩, .constant 1,
      .binary .add ⟨0⟩ ⟨2⟩, .power ⟨3⟩ 2, .binary .multiply ⟨1⟩ ⟨4⟩], 2⟩ := by decide +kernel
  have hdefined (w : ℚ) : Scalar.isNaN w = false := by simp [Scalar.isNaN]
  have hreach : ((after scaledSquare).graphAt "f").Reaches 5 4 := by
    rw [hgraph]
    exact .step rfl (by simp [Node.operands]) (by decide) (.refl 4)
  obtain ⟨e, g', hrun, hfolded⟩ := (bound_expressions_fold scaledSquare "f" ⟨5⟩
    [⟨⟨0⟩, ⟨0⟩⟩, ⟨⟨1⟩, ⟨1⟩⟩] [2, 3]).1 27
      ⟨toOption_eq_some.mp (by decide +kernel), fun _ w _ _ => hdefined w⟩
  obtain ⟨image, _, c, h', himages, -, -, hc, hfolded'⟩ := (bound_expressions_fold scaledSquare "f"
    ⟨5⟩ [⟨⟨0⟩, ⟨0⟩⟩] [2]).2 4 9 hreach
      ⟨toOption_eq_some.mp (by decide +kernel), fun _ w _ _ => hdefined w⟩
  exact ⟨⟨e, g', hrun, hfolded⟩, image, c, h', himages, hc, hfolded'⟩

end Workspace

end Autodiff
