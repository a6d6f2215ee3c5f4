import Autodiff.Proofs.Certificates
import Autodiff.Proofs.NewVariables

namespace Autodiff

variable {α : Type} [ExactScalar α]

theorem dot_self_eq_sum (a : List α) : dot a a = (a.map (· ^ 2)).sum := by
  rw [dot_eq_sum, List.zipWith_self]
  simp only [pow_two]

theorem half_eq : (Scalar.half : α) = 1 / 2 := by
  rw [Scalar.half, Scalar.two, one_add_one_eq_two]

variable [SquarePowers α]

namespace Lagrangian

variable {l : Lagrangian α} {g : Graph α} {objective : Expr} {constraints : List Expr}
  {vars : List Var} {d : Blueprint α} {x multipliers : List α} {penalty : α}

/-- The value of the root of a Lagrangian in terms of the values of old expressions. -/
theorem LaidOut.valueAt_root (h : l.LaidOut g objective constraints vars d)
    (hx : x.length = vars.length) (hm : multipliers.length = l.constraints.length)
    (he : objective.index < g.size) (hc : ∀ c ∈ constraints, c.index < g.size) :
    let values := constraints.map fun c => g.valueAt (assignment vars x) c.index
    d.extended.valueAt (d.env vars x multipliers penalty) d.root.index =
      g.valueAt (assignment vars x) objective.index +
        (List.zipWith (· * ·) multipliers values).sum +
        penalty / 2 * (values.map (· ^ 2)).sum := by
  intro values
  have hvalues : (constraints.map fun c =>
      d.extended.valueAt (d.env vars x multipliers penalty) c.index) = values :=
    List.map_congr_left fun c hmem => h.valueAt_old hx (hc c hmem)
  rw [h.stands.valueAt_root, h.valueAt_multipliers hx hm, h.valueAt_penalty hx, hvalues,
    h.valueAt_old hx he, dot_eq_sum, dot_self_eq_sum, half_eq]
  ring

end Lagrangian

/-- In exact arithmetic the compiled Lagrangian is the augmented Lagrangian: wherever it has a
value, so have the objective and all constraints, and value and gradient are those of
`f + Σ λᵢ cᵢ + (μ / 2) Σ cᵢ²`. -/
theorem lagrangian_closed_form {p : Problem α} {l : Lagrangian α}
    (hobjective : p.objective.index < p.graph.size)
    (h : Lagrangian.ofGraph p.graph p.objective p.constraints p.vars = .ok l)
    {x multipliers : List α} {penalty : α} {r : α × List α}
    (hr : l.evaluate x multipliers penalty = .ok r) :
    multipliers.length = p.constraints.length ∧ ∃ s, p.Measures x s ∧
      r.1 = s.value + (List.zipWith (· * ·) multipliers s.constraints).sum +
        penalty / 2 * (s.constraints.map (· ^ 2)).sum ∧
      r.2 = lagrangianGradient s.objectiveGradient
        (List.zipWith (fun m c => m + penalty * c) multipliers s.constraints)
        s.constraintGradients := by
  obtain ⟨d, hd⟩ := Lagrangian.ofGraph_spec h
  obtain ⟨hx, hm⟩ := hd.lengths_of_evaluate hr
  have ha := hd.admits_of_evaluate hx hm hr
  have hmeasures := hd.measures hobjective (Lagrangian.vars_lt_of_ofGraph h) hx ha
  refine ⟨hm.trans hd.length_constraints, _, hmeasures, ?_, ?_⟩
  · rw [Except.ok.inj (hr.symm.trans (hd.evaluate_of_admits hx hm penalty ha))]
    exact hd.valueAt_root hx hm hobjective hd.constraint_lt
  · rw [Except.ok.inj (hr.symm.trans (hd.evaluate_of_admits hx hm penalty ha))]
    exact hd.gradient_eq hx hm hobjective hd.constraint_lt

def repeatedGraph : Graph ℚ :=
  ⟨#[.variable ⟨0⟩, .variable ⟨1⟩, .constant 0, .constant 1, .binary .multiply ⟨0⟩ ⟨1⟩], 2⟩

/-- The product of two variables, which is to be zero itself, as are a constant zero, a constant one
and twice the first variable. -/
def repeatedProblem : Problem ℚ :=
  ⟨repeatedGraph, ⟨4⟩, [⟨2⟩, ⟨3⟩, ⟨0⟩, ⟨0⟩, ⟨4⟩], [⟨⟨0⟩, ⟨0⟩⟩, ⟨⟨1⟩, ⟨1⟩⟩], [2, 3]⟩

theorem lagrangian_closed_form_repeated : ∃ l s,
    Lagrangian.ofGraph repeatedGraph ⟨4⟩ [⟨2⟩, ⟨3⟩, ⟨0⟩, ⟨0⟩, ⟨4⟩] [⟨⟨0⟩, ⟨0⟩⟩, ⟨⟨1⟩, ⟨1⟩⟩] = .ok l ∧
      l.evaluate [2, 3] [1, 2, 3, 4, 5] 2 = .ok (97, [69, 36]) ∧
      repeatedProblem.Measures [2, 3] s ∧
      97 = s.value + (List.zipWith (· * ·) [1, 2, 3, 4, 5] s.constraints).sum +
        2 / 2 * (s.constraints.map (· ^ 2)).sum ∧
      [69, 36] = lagrangianGradient s.objectiveGradient
        (List.zipWith (fun m c => m + 2 * c) [1, 2, 3, 4, 5] s.constraints)
        s.constraintGradients := by
  have hevaluate : ((Lagrangian.ofGraph repeatedGraph ⟨4⟩ [⟨2⟩, ⟨3⟩, ⟨0⟩, ⟨0⟩, ⟨4⟩]
      [⟨⟨0⟩, ⟨0⟩⟩, ⟨⟨1⟩, ⟨1⟩⟩]).toOption.bind fun l =>
        (l.evaluate [2, 3] [1, 2, 3, 4, 5] 2).toOption) = some (97, [69, 36]) := by decide +kernel
  obtain ⟨l, hl, hr⟩ := Option.bind_eq_some_iff.mp hevaluate
  rw [toOption_eq_some] at hl hr
  obtain ⟨-, s, hs, hclosed⟩ := lagrangian_closed_form (p := repeatedProblem) (by decide) hl hr
  exact ⟨l, s, hl, hr, hs, hclosed⟩

end Autodiff
