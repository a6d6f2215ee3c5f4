import Autodiff.Proofs.Definedness
import Autodiff.Proofs.NewVariables
import Autodiff.Proofs.SolverSequences

namespace Autodiff

variable {α : Type} [Scalar α]

/-- A call is refused exactly under a condition, and has an answer otherwise. -/
structure RefusedWhen {β ε : Type} (condition : Prop) (refusal : Error α → ε) (r : Except ε β) :
    Prop where
  refused : condition → ∃ cause, r = .error (refusal cause)
  answers : ¬condition → ∃ y, r = .ok y

/-- A point lies outside the domain of one of some expressions. -/
def Graph.Outside (g : Graph α) (es : List Expr) (vars : List Var) (x : List α) : Prop :=
  ∃ e ∈ es, ∃ cause, g.evaluate e vars x = .error (.refused cause)

/-- The augmented Lagrangian can be evaluated where its objective and all its constraints can. What
is built on top of them cannot fail, whatever the values of the parameters. -/
theorem Assembly.Stands.defined_root [WholeSquares α] {a : Assembly} {g extended : Graph α}
    {objective root : Expr} {constraints : List Expr} {env : Nat → Option α}
    (h : a.Stands g extended objective constraints root)
    (hparams : ∀ y ∈ a.penalty :: a.multipliers, (env y.expr.index).isSome = true) :
    extended.Defined env root.index ↔
      ∀ e ∈ objective :: constraints, extended.Defined env e.index := by
  have hvariable {y : Var} (hy : y ∈ a.penalty :: a.multipliers)
      (hn : extended.nodes[y.expr.index]? = some (.variable y.id)) :
      extended.Defined env y.expr.index := by
    rw [Graph.defined_node hn (by simp [Node.operands])]
    exact ⟨by simp [Node.operands], if_pos (hparams y hy)⟩
  have hmultiplier : ∀ e ∈ a.multipliers.map Var.expr, extended.Defined env e.index := by
    intro e he
    obtain ⟨y, hy, rfl⟩ := List.mem_map.mp he
    exact hvariable (by simp [hy]) (h.multipliers y hy).node
  -- Folding may drop a constraint from its square, but never from its product with a multiplier.
  have hweighted : extended.Defined env a.weighted.index ↔
      ∀ c ∈ constraints, extended.Defined env c.index := by
    rw [h.weighted.defined_iff]
    constructor
    · intro hproducts c hc
      have hsecond : ((a.multipliers.map Var.expr).zip constraints).map Prod.snd = constraints :=
        List.map_snd_zip (by rw [List.length_map, h.length])
      obtain ⟨p, hp, rfl⟩ := List.mem_map.mp (hsecond ▸ hc)
      obtain ⟨e, he, hproduct⟩ := exists_of_forall₂ h.products hp
      exact (hproduct.defined_iff.mp (hproducts e he)).2
    · intro hall e he
      obtain ⟨p, hp, hproduct⟩ := exists_of_forall₂ h.products.flip he
      obtain ⟨hleft, hright⟩ := List.of_mem_zip hp
      exact hproduct.defined_iff.mpr ⟨hmultiplier p.1 hleft, hall p.2 hright⟩
  have hterm (hall : ∀ c ∈ constraints, extended.Defined env c.index) :
      extended.Defined env a.penaltyTerm.index := by
    have hhalf : extended.Defined env a.halfPenalty.index := h.halfPenalty.defined_iff.mpr
      ⟨Graph.defined_constant h.half, hvariable (by simp) h.penalty.node⟩
    refine h.penaltyTerm.defined_iff.mpr ⟨hhalf, h.total.defined_iff.mpr fun e he => ?_⟩
    obtain ⟨c, hc, hsquare⟩ := exists_of_forall₂ h.squares.flip he
    exact hsquare.defined_square (hall c hc)
  rw [h.root.defined_iff]
  simp only [List.forall_mem_cons, hweighted, List.not_mem_nil, false_implies, implies_true, and_true]
  exact and_congr_right fun _ => and_iff_left_of_imp hterm

namespace Lagrangian

variable {l : Lagrangian α} {g : Graph α} {objective : Expr} {constraints : List Expr}
  {vars : List Var} {d : Blueprint α} {x multipliers : List α} {penalty : α}

namespace LaidOut

theorem isSome_param (h : l.LaidOut g objective constraints vars d) (hx : x.length = vars.length)
    (hm : multipliers.length = l.constraints.length) {y : Var} (hy : y ∈ d.params) :
    (d.env vars x multipliers penalty y.expr.index).isSome = true := by
  rw [h.env_isSome hx hm, Option.isSome_iff_ne_none]
  intro hp
  exact position_eq_none_iff.mp hp y (List.mem_append_right _ hy) rfl

theorem index_lt (h : l.LaidOut g objective constraints vars d)
    (hobjective : objective.index < g.size) : ∀ e ∈ objective :: constraints, e.index < g.size := by
  intro e he
  rcases List.mem_cons.mp he with rfl | hc
  · exact hobjective
  · exact h.constraint_lt e hc

theorem uses (h : l.LaidOut g objective constraints vars d) :
    ∀ e ∈ objective :: constraints, d.Uses e := by
  intro e he
  rcases List.mem_cons.mp he with rfl | hc
  · exact h.uses_objective
  · exact h.uses_constraint hc

/-- The domain of a Lagrangian is that of its objective and its constraints in common. -/
theorem admits_iff_evaluate [WholeSquares α] (h : l.LaidOut g objective constraints vars d)
    (hvars : ∀ v ∈ vars, v.expr.index < g.size) (hobjective : objective.index < g.size)
    (hx : x.length = vars.length) :
    l.Admits x ↔ ∀ e ∈ objective :: constraints, ∃ v, g.evaluate e vars x = .ok v := by
  have hm : (List.replicate l.constraints.length (0 : α)).length = l.constraints.length :=
    List.length_replicate
  have hroot : l.Admits x ↔ d.extended.Defined
      (d.env vars x (List.replicate l.constraints.length 0) 0) d.root.index := by
    rw [h.admits_iff hx hm 0, Graph.defined_iff_errorAt?]
    refine forall_congr' fun i => ?_
    rw [h.renders.ordered.mem_iff]
    refine ⟨fun hi node hr _ => hi hr, fun hi hr => ?_⟩
    obtain ⟨node, hn⟩ := h.renders.ordered.node_exists ((h.renders.ordered.mem_iff i).mpr hr)
    exact hi node hr hn
  rw [hroot, h.stands.defined_root fun y hy => h.isSome_param hx hm hy]
  refine forall₂_congr fun e he => ?_
  have hlt := h.index_lt hobjective e he
  have hclosed := h.closed_old (h.uses e he) hlt
  rw [Graph.defined_extend h.stands.grows.extension hlt hclosed fun j hj => h.env_old hx hj]
  simp only [Graph.evaluate_eq_ok hlt hclosed (h.binds_old hvars), hx, true_and, exists_and_left,
    exists_eq', and_true]

/-- An old expression has a value, or there is a reason why it has none. -/
theorem evaluate_old_cases (h : l.LaidOut g objective constraints vars d)
    (hvars : ∀ v ∈ vars, v.expr.index < g.size) (hx : x.length = vars.length) {e : Expr}
    (hu : d.Uses e) (he : e.index < g.size) :
    (∃ v, g.evaluate e vars x = .ok v) ∨ ∃ cause, g.evaluate e vars x = .error (.refused cause) := by
  obtain ⟨order, ho⟩ := Graph.reachable_of_closed he (h.closed_old hu he)
  rw [Graph.evaluate_eq hx.symm ho (h.binds_old hvars)]
  rcases g.answer_cases (assignment vars x) order _ with ha | ha
  · exact Or.inl ⟨_, ha⟩
  · exact Or.inr ha

theorem not_admits_iff_outside [WholeSquares α] (h : l.LaidOut g objective constraints vars d)
    (hvars : ∀ v ∈ vars, v.expr.index < g.size) (hobjective : objective.index < g.size)
    (hx : x.length = vars.length) :
    ¬l.Admits x ↔ g.Outside (objective :: constraints) vars x := by
  rw [h.admits_iff_evaluate hvars hobjective hx, Graph.Outside]
  push Not
  refine exists_congr fun e => and_congr_right fun he => ?_
  rcases h.evaluate_old_cases hvars hx (h.uses e he) (h.index_lt hobjective e he) with
    ⟨v, hv⟩ | ⟨cause, hc⟩
  · simp [hv]
  · simp [hc]

theorem evaluate_refused (h : l.LaidOut g objective constraints vars d)
    (hx : x.length = vars.length) (hm : multipliers.length = l.constraints.length) (penalty : α) :
    RefusedWhen (¬l.Admits x) .refused (l.evaluate x multipliers penalty) := by
  refine ⟨fun ha => ?_, fun ha => ⟨_, h.evaluate_of_admits hx hm penalty (not_not.mp ha)⟩⟩
  rcases h.evaluate_cases hx hm penalty with ⟨-, -, ha'⟩ | he
  · exact absurd ha' ha
  · exact he

theorem measure_refused (h : l.LaidOut g objective constraints vars d)
    (hx : x.length = vars.length) : RefusedWhen (¬l.Admits x) .refused (l.measure x) := by
  refine ⟨fun ha => ?_, fun ha => ⟨_, h.measure_eq hx (not_not.mp ha)⟩⟩
  have hvalue := h.objectiveValue_eq hx
  rcases d.extended.answer_cases (d.env vars x (List.replicate l.constraints.length 0) 0) d.order
    _ with hok | ⟨cause, hc⟩
  · exact absurd ⟨_, hvalue.trans hok⟩ ha
  · exact ⟨cause, by rw [measure, hvalue, hc, error_bind]⟩

end LaidOut

end Lagrangian

/-- A solver that starts with an evaluation of the Lagrangian is refused when that is. -/
theorem MultiplierMethod.outcome_refused (m : MultiplierMethod α) {p : Problem α}
    {l : Lagrangian α} (h : Lagrangian.ofProblem p = .ok l) :
    RefusedWhen (¬l.Admits p.start) (fun cause => .term (.refused cause))
      (m.solver.start p).outcome := by
  obtain ⟨hstart, -, d, hd⟩ := Lagrangian.ofProblem_spec h
  have hm : (List.replicate l.constraints.length (0 : α)).length = l.constraints.length :=
    List.length_replicate
  have hcheck := hd.evaluate_refused hstart hm m.initialPenalty
  simp only [solver, h, ok_bind]
  refine ⟨fun ha => ?_, fun ha => ?_⟩
  · obtain ⟨cause, hc⟩ := hcheck.refused ha
    exact ⟨cause, by rw [hc]; rfl⟩
  · obtain ⟨y, hy⟩ := hcheck.answers ha
    exact ⟨_, by rw [hy]; rfl⟩

/-- The penalty method is refused when the evaluation of the Lagrangian is. Otherwise its
minimisation ends at a point that can be measured, unless it breaks for want of room for its curvature
pairs. -/
structure PenaltyMethod.Answers (m : PenaltyMethod α) (p : Problem α) (l : Lagrangian α)
    (outside : Prop) : Prop where
  refused : outside → ∃ cause, (m.solver.start p).outcome = .error (.term (.refused cause))
  answers : ¬outside →
    let config := m.lbfgs.withGradientTolerance m.gradientTolerance
    let objective := l.reply (List.replicate l.constraints.length 0) (Scalar.two * m.penalty)
    (config.Overflows (objective p.start) ∧
      (config.minimize p.start).runWith objective = .error .capacityOverflow ∧
      (m.solver.start p).outcome = .error (.ofFault .capacityOverflow)) ∨
    ∃ result measured its, (config.minimize p.start).runWith objective = .ok result ∧
      l.measure result.x = .ok measured ∧ (m.solver.start p).outcome = .ok its

theorem PenaltyMethod.answers_of_ofProblem [SoundTests α] (m : PenaltyMethod α) {p : Problem α}
    {l : Lagrangian α} (h : Lagrangian.ofProblem p = .ok l) : m.Answers p l (¬l.Admits p.start) := by
  obtain ⟨hstart, -, d, hd⟩ := Lagrangian.ofProblem_spec h
  have hm : (List.replicate l.constraints.length (0 : α)).length = l.constraints.length :=
    List.length_replicate
  have hcheck := hd.evaluate_refused hstart hm (Scalar.two * m.penalty)
  refine ⟨fun ha => ?_, fun ha => ?_⟩
  · obtain ⟨cause, hc⟩ := hcheck.refused ha
    exact ⟨cause, by simp only [solver, h, ok_bind, m.run_of_refused hc]; rfl⟩
  · rcases m.run_of_admits h (not_not.mp ha) with
      ⟨hover, hresult, hrun⟩ | ⟨result, it, hresult, ha', hx, hrun, -⟩
    · exact .inl ⟨hover, hresult, by simp only [solver, h, ok_bind, hrun]; rfl⟩
    · refine .inr ⟨result, _, .ofList [it], hresult, hd.measure_eq hx ha', ?_⟩
      simp only [solver, h, ok_bind, hrun]
      rfl

/-- Where a Lagrangian fails depends on the point only, neither on the multipliers nor on the
weight: it fails where the objective or a constraint does, and so does the measurement of both. The
solvers turn a start point away under the same condition, whatever their settings. If the penalty
method does not, its minimisation ends at a point that can be measured, unless it breaks for want of
room for its curvature pairs. -/
theorem lagrangian_fails_with_parts [SoundTests α] [WholeSquares α] {g : Graph α}
    {objective : Expr} {constraints : List Expr} {vars : List Var} {l : Lagrangian α}
    (hobjective : objective.index < g.size)
    (h : Lagrangian.ofGraph g objective constraints vars = .ok l) {x : List α}
    (hx : x.length = vars.length) :
    let outside := g.Outside (objective :: constraints) vars x
    let p : Problem α := ⟨g, objective, constraints, vars, x⟩
    (∀ multipliers penalty, multipliers.length = constraints.length →
      RefusedWhen outside .refused (l.evaluate x multipliers penalty)) ∧
    RefusedWhen outside .refused (l.measure x) ∧
    (∀ m : MultiplierMethod α, RefusedWhen outside (fun cause => .term (.refused cause))
      (m.solver.start p).outcome) ∧
    ∀ m : PenaltyMethod α, m.Answers p l outside := by
  intro outside p
  obtain ⟨d, hd⟩ := Lagrangian.ofGraph_spec h
  have hl : Lagrangian.ofProblem p = .ok l := by
    have hfit : ¬x.length ≠ l.dimension := by rw [hd.dimension_eq]; exact not_not.mpr hx
    simp only [Lagrangian.ofProblem, p, h, Except.mapError, ok_bind, if_neg hfit]
    rfl
  have houtside : (¬l.Admits x) = outside :=
    propext (hd.not_admits_iff_outside (Lagrangian.vars_lt_of_ofGraph h) hobjective hx)
  have hlength : l.constraints.length = constraints.length := hd.length_constraints
  rw [← houtside]
  refine ⟨fun multipliers penalty hm => ?_, hd.measure_refused hx, fun m => ?_, fun m => ?_⟩
  · exact hd.evaluate_refused hx (hm.trans hlength.symm) penalty
  · exact m.outcome_refused hl
  · exact m.answers_of_ofProblem hl

/-- The logarithm of a variable, and the square of the variable. -/
def logarithmGraph : Graph Float :=
  ⟨#[.variable ⟨0⟩, .unary .log ⟨0⟩, .power ⟨0⟩ 2], 1⟩

/-- With undefined multipliers and an infinite weight it is still the logarithm alone that decides. -/
theorem lagrangian_fails_with_parts_logarithm : ∃ l,
    Lagrangian.ofGraph logarithmGraph ⟨2⟩ [⟨0⟩, ⟨1⟩, ⟨1⟩] [⟨⟨0⟩, ⟨0⟩⟩] = .ok l ∧
      (∃ cause, l.evaluate [-1] [0, 0 / 0, 1] (1 / 0) = .error (.refused cause)) ∧
      (∃ cause, l.measure [-1] = .error (.refused cause)) ∧
      ∃ r, l.evaluate [2] [0, 0 / 0, 1] (1 / 0) = .ok r := by
  have hok : (Lagrangian.ofGraph logarithmGraph ⟨2⟩ [⟨0⟩, ⟨1⟩, ⟨1⟩] [⟨⟨0⟩, ⟨0⟩⟩]).isOk = true := by
    decide +kernel
  cases h : Lagrangian.ofGraph logarithmGraph ⟨2⟩ [⟨0⟩, ⟨1⟩, ⟨1⟩] [⟨⟨0⟩, ⟨0⟩⟩] with
  | error e =>
    rw [h] at hok
    cases hok
  | ok l =>
    have houtside : logarithmGraph.Outside [⟨2⟩, ⟨0⟩, ⟨1⟩, ⟨1⟩] [⟨⟨0⟩, ⟨0⟩⟩] [-1] :=
      ⟨⟨1⟩, by simp, .logDomain (-1), by rfl⟩
    have hinside : ¬logarithmGraph.Outside [⟨2⟩, ⟨0⟩, ⟨1⟩, ⟨1⟩] [⟨⟨0⟩, ⟨0⟩⟩] [2] := by
      have hall : ∀ e ∈ [⟨2⟩, ⟨0⟩, ⟨1⟩, ⟨1⟩],
          (logarithmGraph.evaluate e [⟨⟨0⟩, ⟨0⟩⟩] [2]).isOk = true := by decide +kernel
      rintro ⟨e, he, cause, hc⟩
      have hvalue := hall e he
      rw [hc] at hvalue
      cases hvalue
    have hneg := lagrangian_fails_with_parts (by decide) h (x := [-1]) rfl
    have hpos := lagrangian_fails_with_parts (by decide) h (x := [2]) rfl
    exact ⟨l, rfl, (hneg.1 _ _ rfl).refused houtside, hneg.2.1.refused houtside,
      (hpos.1 _ _ rfl).answers hinside⟩

end Autodiff
