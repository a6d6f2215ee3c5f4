import Autodiff.Proofs.AugmentedGraph
import Autodiff.Proofs.GrownValues
import Autodiff.Proofs.TapeAgreement

namespace Autodiff

variable {α : Type} [Scalar α]

namespace Assembly.Stands

variable {a : Assembly} {g extended : Graph α} {objective root : Expr} {constraints : List Expr}

theorem constantAt?_multiplier (h : a.Stands g extended objective constraints root) {x : Var}
    (hx : x ∈ a.multipliers) : extended.constantAt? x.expr.index = none := by
  simp [Graph.constantAt?, (h.multipliers x hx).node, Node.constant?]

/-- The augmented Lagrangian depends on every constraint that is no constant. -/
theorem reaches_constraint (h : a.Stands g extended objective constraints root) {c : Expr}
    (hc : c ∈ constraints) (hn : extended.constantAt? c.index = none) :
    extended.Reaches root.index c.index := by
  obtain ⟨i, hi, rfl⟩ := List.getElem_of_mem hc
  have hi' : i < a.multipliers.length := h.length ▸ hi
  have hzip : i < ((a.multipliers.map Var.expr).zip constraints).length := by
    simp only [List.length_zip, List.length_map]
    omega
  have hpair := List.getElem_mem hzip
  rw [List.getElem_zip, List.getElem_map] at hpair
  obtain ⟨product, hmem, hproduct⟩ := exists_of_forall₂ h.products hpair
  have hmult := h.constantAt?_multiplier (List.getElem_mem hi')
  obtain ⟨hpn, hreach⟩ := hproduct.reaches hmult
  obtain ⟨hwn, hreach'⟩ := h.weighted.reaches hmem hpn
  obtain ⟨-, hreach''⟩ := h.root.reaches (show a.weighted ∈ _ by simp) hwn
  exact (hreach''.trans hreach').trans (hreach hn)

theorem reaches_objective (h : a.Stands g extended objective constraints root)
    (hn : extended.constantAt? objective.index = none) :
    extended.Reaches root.index objective.index :=
  (h.root.reaches (by simp) hn).2

end Assembly.Stands

/-- What a Lagrangian was laid out from. -/
structure Blueprint (α : Type) where
  assembly : Assembly
  extended : Graph α
  root : Expr
  order : List Nat
  layout : Layout α

namespace Blueprint

def params (d : Blueprint α) : List Var := d.assembly.penalty :: d.assembly.multipliers

/-- An expression that is constant or that the root of the Lagrangian depends on. -/
def Uses (d : Blueprint α) (e : Expr) : Prop :=
  d.extended.constantAt? e.index = none → d.extended.Reaches d.root.index e.index

/-- The values of the variable nodes at a point, with given multipliers and penalty weight. -/
def env (d : Blueprint α) (vars : List Var) (x multipliers : List α) (penalty : α) :
    Nat → Option α :=
  assignment (vars ++ d.params) (x ++ Lagrangian.params multipliers penalty)

end Blueprint

namespace Lagrangian

/-- A Lagrangian renders the extended graph, and its constraints are compiled from the graph. -/
structure LaidOut (l : Lagrangian α) (g : Graph α) (objective : Expr) (constraints : List Expr)
    (vars : List Var) (d : Blueprint α) : Prop where
  stands : d.assembly.Stands g d.extended objective constraints d.root
  reachable : d.extended.reachable d.root = .ok d.order
  renders : l.tape.Renders d.extended d.root d.order vars d.params d.layout
  constraints : List.Forall₂ (fun c t => g.compile c vars = .ok t) constraints l.constraints

theorem root_lt_of_compile {g : Graph α} {root : Expr} {vars : List Var} {t : Tape α}
    (h : g.compile root vars = .ok t) :
    root.index < g.size ∧ ∃ order l, g.reachable root = .ok order ∧
      t.Renders g root order vars [] l := by
  rcases g.compileParametric_cases root vars [] with
    ⟨t', order, l, hc, ho, hr⟩ | ⟨id, order, hc, -⟩ | ⟨e, hc, -⟩
  · obtain rfl : t = t' := Except.ok.inj (h.symm.trans hc)
    exact ⟨hr.ordered.root_lt, order, l, ho, hr⟩
  · cases h.symm.trans hc
  · cases h.symm.trans hc

theorem ofGraph_spec {g : Graph α} {objective : Expr} {constraints : List Expr} {vars : List Var}
    {l : Lagrangian α} (h : ofGraph g objective constraints vars = .ok l) :
    ∃ d, l.LaidOut g objective constraints vars d := by
  unfold ofGraph at h
  split at h
  next => cases h
  next root params extended hassemble =>
    obtain ⟨tape, htape, h⟩ := bind_eq_ok.mp h
    obtain ⟨tapes, htapes, h⟩ := bind_eq_ok.mp h
    obtain rfl := Except.ok.inj h
    have hall := forall₂_of_mapM htapes
    have hlt : ∀ c ∈ constraints, c.index < g.size := by
      intro c hc
      obtain ⟨t, -, ht⟩ := exists_of_forall₂ hall hc
      exact (root_lt_of_compile ht).1
    obtain ⟨a, rfl, hstands⟩ := assemble_spec hlt hassemble
    rcases extended.compileParametric_cases root vars (a.penalty :: a.multipliers) with
      ⟨t, order, layout, hc, ho, hr⟩ | ⟨id, order, hc, -⟩ | ⟨e, hc, -⟩
    · obtain rfl : tape = t := Except.ok.inj (htape.symm.trans hc)
      exact ⟨⟨a, extended, root, order, layout⟩, hstands, ho, hr, hall⟩
    · cases htape.symm.trans hc
    · cases htape.symm.trans hc

variable {l : Lagrangian α} {g : Graph α} {objective : Expr} {constraints : List Expr}
  {vars : List Var} {d : Blueprint α} {x multipliers : List α} {penalty : α}

namespace LaidOut

theorem length_constraints (h : l.LaidOut g objective constraints vars d) :
    l.constraints.length = constraints.length := h.constraints.length_eq.symm

theorem constraint_lt (h : l.LaidOut g objective constraints vars d) :
    ∀ c ∈ constraints, c.index < g.size := by
  intro c hc
  obtain ⟨t, -, ht⟩ := exists_of_forall₂ h.constraints hc
  exact (root_lt_of_compile ht).1

theorem length_params (h : l.LaidOut g objective constraints vars d)
    (hm : multipliers.length = l.constraints.length) :
    (params multipliers penalty).length = d.params.length := by
  simp only [params, Blueprint.params, List.length_cons, hm, h.length_constraints, h.stands.length]

theorem dimension_eq (h : l.LaidOut g objective constraints vars d) :
    l.dimension = vars.length := h.renders.inputs

theorem position_params (h : l.LaidOut g objective constraints vars d) {j : Nat}
    (hj : j < g.size) : position d.params j = none := by
  rw [position_eq_none_iff]
  intro y hy he
  rcases List.mem_cons.mp hy with rfl | hy
  · have := h.stands.penalty.le
    omega
  · have := (h.stands.multipliers y hy).le
    omega

theorem env_old (h : l.LaidOut g objective constraints vars d) (hx : x.length = vars.length)
    {j : Nat} (hj : j < g.size) :
    d.env vars x multipliers penalty j = assignment vars x j :=
  assignment_append hx.symm (h.position_params hj)

theorem env_isSome (h : l.LaidOut g objective constraints vars d) (hx : x.length = vars.length)
    (hm : multipliers.length = l.constraints.length) (j : Nat) :
    (d.env vars x multipliers penalty j).isSome = (position (vars ++ d.params) j).isSome := by
  apply assignment_isSome
  rw [List.length_append, List.length_append, hx, h.length_params hm]

theorem env_param (h : l.LaidOut g objective constraints vars d) (hx : x.length = vars.length)
    {k : Nat} {y : Var} (hk : d.params[k]? = some y) :
    d.env vars x multipliers penalty y.expr.index = (params multipliers penalty)[k]? := by
  have hget : (vars ++ d.params)[vars.length + k]? = some y := by
    rw [List.getElem?_append_right (by omega), Nat.add_sub_cancel_left, hk]
  rw [Blueprint.env, assignment, position_of_nodup h.renders.binds.nodup hget, Option.bind_some,
    List.getElem?_append_right (by omega), hx, Nat.add_sub_cancel_left]

theorem valueAt_penalty (h : l.LaidOut g objective constraints vars d)
    (hx : x.length = vars.length) :
    d.extended.valueAt (d.env vars x multipliers penalty) d.assembly.penalty.expr.index =
      penalty := by
  have hk : d.params[0]? = some d.assembly.penalty := rfl
  rw [Graph.valueAt_variable h.stands.penalty.node, h.env_param hx hk]
  rfl

theorem valueAt_multipliers (h : l.LaidOut g objective constraints vars d)
    (hx : x.length = vars.length) (hm : multipliers.length = l.constraints.length) :
    (d.assembly.multipliers.map fun y =>
      d.extended.valueAt (d.env vars x multipliers penalty) y.expr.index) = multipliers := by
  have hl : d.assembly.multipliers.length = multipliers.length := by
    rw [h.stands.length, hm, h.length_constraints]
  refine List.ext_getElem (by rw [List.length_map, hl]) fun k hk hk' => ?_
  have hk'' : k < d.assembly.multipliers.length := hl ▸ hk'
  have hget : d.params[k + 1]? = some d.assembly.multipliers[k] := by
    rw [Blueprint.params, List.getElem?_cons_succ, List.getElem?_eq_getElem hk'']
  have hnode := (h.stands.multipliers _ (List.getElem_mem hk'')).node
  rw [List.getElem_map, Graph.valueAt_variable hnode, h.env_param hx hget, params,
    List.getElem?_cons_succ, List.getElem?_eq_getElem hk', Option.getD_some]

theorem valueAt_old (h : l.LaidOut g objective constraints vars d) (hx : x.length = vars.length)
    {e : Expr} (he : e.index < g.size) :
    d.extended.valueAt (d.env vars x multipliers penalty) e.index =
      g.valueAt (assignment vars x) e.index :=
  Graph.valueAt_extend h.stands.grows.extension he fun _ hj => h.env_old hx hj

/-- Where the Lagrangian has a value depends neither on the multipliers nor on the weight. -/
theorem errorAt?_eq (h : l.LaidOut g objective constraints vars d) (hx : x.length = vars.length)
    (hm : multipliers.length = l.constraints.length) {multipliers' : List α}
    (hm' : multipliers'.length = l.constraints.length) (penalty penalty' : α) {i : Nat}
    (hi : i ∈ d.order) :
    d.extended.errorAt? (d.env vars x multipliers' penalty') i =
      d.extended.errorAt? (d.env vars x multipliers penalty) i := by
  have hord := h.renders.ordered
  obtain ⟨node, hn⟩ := hord.node_exists hi
  refine Graph.errorAt?_grows h.stands.grows hn (fun e he => hord.operand_lt hi hn he) ?_ ?_
  · intro j hj
    rw [h.env_old hx hj, h.env_old hx hj]
  · intro j
    rw [h.env_isSome hx hm', h.env_isSome hx hm]

theorem evaluate_eq (h : l.LaidOut g objective constraints vars d) (hx : x.length = vars.length)
    (hm : multipliers.length = l.constraints.length) (penalty : α) :
    let env := d.env vars x multipliers penalty
    l.evaluate x multipliers penalty = d.extended.answer env d.order
      (d.extended.valueAt env d.root.index,
        vars.map fun v => d.extended.adjoints env d.root.index d.order v.expr.index) :=
  h.renders.evaluateParametric_eq hx (h.length_params hm)

theorem objectiveValue_eq (h : l.LaidOut g objective constraints vars d)
    (hx : x.length = vars.length) :
    let env := d.env vars x (List.replicate l.constraints.length 0) 0
    l.objectiveValue x = d.extended.answer env d.order (d.extended.valueAt env d.root.index) := by
  have hzeros : List.replicate (1 + l.constraints.length) (0 : α) =
      params (List.replicate l.constraints.length 0) 0 := by
    rw [Nat.add_comm, List.replicate_succ]
    rfl
  rw [objectiveValue, hzeros]
  exact h.renders.valueParametric_eq hx (h.length_params List.length_replicate)

end LaidOut

/-- A point in the domain of the objective and of all constraints. -/
def Admits (l : Lagrangian α) (x : List α) : Prop := ∃ v, l.objectiveValue x = .ok v

namespace LaidOut

theorem admits_iff (h : l.LaidOut g objective constraints vars d) (hx : x.length = vars.length)
    (hm : multipliers.length = l.constraints.length) (penalty : α) :
    l.Admits x ↔
      ∀ i ∈ d.order, d.extended.errorAt? (d.env vars x multipliers penalty) i = none := by
  have hzeros : (List.replicate l.constraints.length (0 : α)).length = l.constraints.length :=
    List.length_replicate
  rw [Admits, h.objectiveValue_eq hx]
  simp only [Graph.answer_eq_ok]
  constructor
  · rintro ⟨v, hv, -⟩ i hi
    rw [h.errorAt?_eq hx hzeros hm 0 penalty hi]
    exact hv i hi
  · intro hv
    refine ⟨_, fun i hi => ?_, rfl⟩
    rw [h.errorAt?_eq hx hm hzeros penalty 0 hi]
    exact hv i hi

/-- The Lagrangian has a value exactly in its domain, whatever multipliers and weight. -/
theorem evaluate_of_admits (h : l.LaidOut g objective constraints vars d)
    (hx : x.length = vars.length) (hm : multipliers.length = l.constraints.length) (penalty : α)
    (ha : l.Admits x) :
    let env := d.env vars x multipliers penalty
    l.evaluate x multipliers penalty = .ok (d.extended.valueAt env d.root.index,
      vars.map fun v => d.extended.adjoints env d.root.index d.order v.expr.index) := by
  intro env
  rw [h.evaluate_eq hx hm, Graph.answer_eq_ok]
  exact ⟨(h.admits_iff hx hm penalty).mp ha, rfl⟩

theorem admits_of_evaluate (h : l.LaidOut g objective constraints vars d)
    (hx : x.length = vars.length) (hm : multipliers.length = l.constraints.length) {penalty : α}
    {r : α × List α} (hr : l.evaluate x multipliers penalty = .ok r) : l.Admits x := by
  rw [h.evaluate_eq hx hm, Graph.answer_eq_ok] at hr
  exact (h.admits_iff hx hm penalty).mpr hr.1

theorem uses_objective (h : l.LaidOut g objective constraints vars d) : d.Uses objective :=
  h.stands.reaches_objective

theorem uses_constraint (h : l.LaidOut g objective constraints vars d) {c : Expr}
    (hc : c ∈ constraints) : d.Uses c := h.stands.reaches_constraint hc

/-- What an old expression depends on is below the root of the Lagrangian as well, or constant. -/
theorem reaches_old (h : l.LaidOut g objective constraints vars d) {e : Expr} (hu : d.Uses e)
    (he : e.index < g.size) {i : Nat} (hi : g.Reaches e.index i) :
    d.extended.Reaches d.root.index i ∨ ∃ v, g.nodes[i]? = some (.constant v) := by
  have hconstant := h.stands.grows.extension.constantAt? he
  cases hv : d.extended.constantAt? e.index with
  | none => exact Or.inl ((hu hv).trans (hi.extend h.stands.grows.extension))
  | some v =>
    have hnode := Graph.constantAt?_eq_some.mp (hconstant.symm.trans hv)
    rw [Graph.eq_of_reaches_constant hnode hi]
    exact Or.inr ⟨v, hnode⟩

theorem closed_old (h : l.LaidOut g objective constraints vars d) {e : Expr} (hu : d.Uses e)
    (he : e.index < g.size) : g.Closed e.index := by
  intro i node hi hn t ht
  rcases h.reaches_old hu he hi with hroot | ⟨v, hv⟩
  · exact h.renders.ordered.closed i node hroot (h.stands.grows.node hn) t ht
  · cases hn.symm.trans hv
    cases ht

/-- In the domain of the Lagrangian the old nodes below its root can be evaluated. -/
theorem defined_old (h : l.LaidOut g objective constraints vars d) (hx : x.length = vars.length)
    (ha : l.Admits x) {e : Expr} (hu : d.Uses e) {order : List Nat}
    (ho : g.Ordered e.index order) :
    ∀ i ∈ order, g.errorAt? (assignment vars x) i = none := by
  intro i hi
  obtain ⟨node, hn⟩ := ho.node_exists hi
  have hzeros : (List.replicate l.constraints.length (0 : α)).length = l.constraints.length :=
    List.length_replicate
  rcases h.reaches_old hu ho.root_lt ((ho.mem_iff i).mp hi) with hroot | ⟨v, hv⟩
  · have hmem := (h.renders.ordered.mem_iff i).mpr hroot
    rw [← Graph.errorAt?_extend h.stands.grows.extension hn (fun e he => ho.operand_lt hi hn he)
      fun j hj => h.env_old hx hj]
    exact (h.admits_iff hx hzeros 0).mp ha i hmem
  · rw [Graph.errorAt?_node hv]
    rfl

/-- Old expressions can be evaluated wherever the Lagrangian has a value. -/
theorem evaluate_old (h : l.LaidOut g objective constraints vars d) (hx : x.length = vars.length)
    (ha : l.Admits x) (hb : g.Binds vars) {e : Expr} (hu : d.Uses e) (he : e.index < g.size) :
    g.evaluate e vars x = .ok (g.valueAt (assignment vars x) e.index) := by
  obtain ⟨order, ho⟩ := Graph.reachable_of_closed he (h.closed_old hu he)
  rw [Graph.evaluate_eq hx.symm ho hb, Graph.answer_eq_ok]
  exact ⟨h.defined_old hx ha hu (Graph.reachable_ordered ho), rfl⟩

theorem binds_old (h : l.LaidOut g objective constraints vars d)
    (hvars : ∀ v ∈ vars, v.expr.index < g.size) : g.Binds vars := by
  have hnodup := h.renders.binds.nodup
  rw [List.map_append, List.nodup_append] at hnodup
  refine ⟨fun v hv => ?_, hnodup.1⟩
  rw [← h.stands.grows.kept _ (hvars v hv)]
  exact h.renders.binds.node_eq v (List.mem_append_left _ hv)

theorem constraintValues_eq (h : l.LaidOut g objective constraints vars d)
    (hx : x.length = vars.length) (ha : l.Admits x) :
    l.constraintValues x = .ok (constraints.map fun c => g.valueAt (assignment vars x) c.index) := by
  have hstep : ∀ (cs : List Expr) (ts : List (Tape α)), (∀ c ∈ cs, c ∈ constraints) →
      List.Forall₂ (fun c t => g.compile c vars = .ok t) cs ts →
      ts.mapM (fun t => t.value x) =
        .ok (cs.map fun c => g.valueAt (assignment vars x) c.index) := by
    intro cs ts hmem hall
    induction hall with
    | nil => rfl
    | @cons c t cs ts hc hall ih =>
      obtain ⟨-, order, layout, ho, hr⟩ := root_lt_of_compile hc
      have hnil : ([] : List α).length = ([] : List Var).length := rfl
      have hvalue := hr.valueParametric_eq hx hnil
      simp only [List.append_nil] at hvalue
      have hok : t.value x = .ok (g.valueAt (assignment vars x) c.index) := by
        refine hvalue.trans (Graph.answer_eq_ok.mpr ⟨?_, rfl⟩)
        exact h.defined_old hx ha (h.uses_constraint (hmem c (by simp))) hr.ordered
      rw [List.mapM_cons, hok, ok_bind, ih fun c' hc' => hmem c' (by simp [hc'])]
      rfl
  exact hstep constraints l.constraints (fun c hc => hc) h.constraints

/-- Objective and constraints can be measured wherever the Lagrangian has a value. -/
theorem measure_eq (h : l.LaidOut g objective constraints vars d) (hx : x.length = vars.length)
    (ha : l.Admits x) :
    l.measure x = .ok
      (d.extended.valueAt (d.env vars x (List.replicate l.constraints.length 0) 0) d.root.index,
        constraints.map fun c => g.valueAt (assignment vars x) c.index) := by
  have hvalue : l.objectiveValue x = .ok (d.extended.valueAt
      (d.env vars x (List.replicate l.constraints.length 0) 0) d.root.index) := by
    rw [h.objectiveValue_eq hx, Graph.answer_eq_ok]
    exact ⟨(h.admits_iff hx List.length_replicate 0).mp ha, rfl⟩
  rw [measure, hvalue, ok_bind, h.constraintValues_eq hx ha]
  rfl

end LaidOut

end Lagrangian

end Autodiff
