import Autodiff.Proofs.Descent
import Autodiff.Proofs.LagrangianDomain
import Autodiff.Proofs.CompiledObjective

namespace Autodiff

variable {α : Type} [Scalar α]

namespace Lagrangian

variable {l : Lagrangian α} {g : Graph α} {objective : Expr} {constraints : List Expr}
  {vars : List Var} {d : Blueprint α} {start multipliers : List α}

theorem LaidOut.length_reply (h : l.LaidOut g objective constraints vars d) {x : List α}
    (hx : x.length = vars.length) (hm : multipliers.length = l.constraints.length) (penalty : α) :
    (l.reply multipliers penalty x).gradient.length = vars.length :=
  (h.renders.length_reply hx (h.length_params hm)).trans hx

/-- Minimising a Lagrangian ends at a point whose value and gradient are those reported, if there is
room for the curvature pairs. -/
theorem LaidOut.minimize_spec (h : l.LaidOut g objective constraints vars d)
    (hzero : (0 : α) < 0 → ∀ x d : List α, x.length = d.length → along x d 0 = x)
    (hstart : start.length = vars.length) (hm : multipliers.length = l.constraints.length)
    (penalty : α) (config : Lbfgs α) :
    config.Yields (l.reply multipliers penalty start) (fun r =>
        r.x.length = vars.length ∧ l.reply multipliers penalty r.x = ⟨r.value, r.gradient⟩ ∧
        r.gradientNorm = norm r.gradient ∧ (Scalar.isFinite r.value = true ∨ r.x = start))
      ((config.minimize start).runWith (l.reply multipliers penalty)) := by
  have hlen : ∀ x : List α, x.length = start.length →
      (l.reply multipliers penalty x).gradient.length = start.length := by
    intro x hx
    rw [h.length_reply (hx.trans hstart) hm, hstart]
  refine (config.minimize_runWith hlen hzero).mono fun r _ hr => ?_
  obtain ⟨hx, hreply, hnorm, hfinite⟩ := hr
  exact ⟨hx.trans hstart, hreply, hnorm, hfinite⟩

theorem LaidOut.evaluate_cases (h : l.LaidOut g objective constraints vars d) {x : List α}
    (hx : x.length = vars.length) (hm : multipliers.length = l.constraints.length) (penalty : α) :
    (∃ r, l.evaluate x multipliers penalty = .ok r ∧ l.Admits x) ∨
      ∃ e, l.evaluate x multipliers penalty = .error (.refused e) := by
  have hevaluate := h.evaluate_eq hx hm penalty
  rcases d.extended.answer_cases (d.env vars x multipliers penalty) d.order _ with ha | ⟨e, ha⟩
  · exact Or.inl ⟨_, hevaluate.trans ha, h.admits_of_evaluate hx hm (hevaluate.trans ha)⟩
  · exact Or.inr ⟨e, hevaluate.trans ha⟩

/-- A Lagrangian has a value only for a point and multipliers that fit. -/
theorem LaidOut.lengths_of_evaluate (h : l.LaidOut g objective constraints vars d) {x : List α}
    {penalty : α} {r : α × List α} (hr : l.evaluate x multipliers penalty = .ok r) :
    x.length = vars.length ∧ multipliers.length = l.constraints.length := by
  obtain ⟨hx, hp⟩ := Tape.lengths_of_evaluateParametric hr
  have hparams := hp.trans h.renders.params
  simp only [params, Blueprint.params, List.length_cons, h.stands.length] at hparams
  exact ⟨hx.trans h.renders.inputs, by rw [h.length_constraints]; omega⟩

/-- A point with a finite reply is in the domain. -/
theorem LaidOut.admits_of_isFinite [SoundTests α] (h : l.LaidOut g objective constraints vars d)
    {x : List α} (hx : x.length = vars.length) (hm : multipliers.length = l.constraints.length)
    {penalty : α} (hf : Scalar.isFinite (l.reply multipliers penalty x).value = true) :
    l.Admits x :=
  h.admits_of_evaluate hx hm (Tape.evaluateParametric_of_isFinite hf)

/-- Minimising a Lagrangian from a point of its domain ends in its domain, if there is room for the
curvature pairs. -/
theorem LaidOut.minimize_admits [SoundTests α] (h : l.LaidOut g objective constraints vars d)
    (hstart : start.length = vars.length) (ha : l.Admits start)
    (hm : multipliers.length = l.constraints.length) (penalty : α) (config : Lbfgs α) :
    config.Yields (l.reply multipliers penalty start)
      (fun r => r.x.length = vars.length ∧ l.Admits r.x)
      ((config.minimize start).runWith (l.reply multipliers penalty)) := by
  refine (h.minimize_spec (fun hlt => absurd hlt SoundTests.not_zero_lt_zero) hstart hm penalty
    config).mono fun r _ hr => ?_
  obtain ⟨hx, hreply, -, hfinite⟩ := hr
  refine ⟨hx, ?_⟩
  rcases hfinite with hfinite | hstart'
  · exact h.admits_of_isFinite hx hm (by rwa [hreply])
  · rw [hstart']
    exact ha

theorem ofProblem_spec {p : Problem α} {l : Lagrangian α} (h : ofProblem p = .ok l) :
    p.start.length = p.vars.length ∧
      ofGraph p.graph p.objective p.constraints p.vars = .ok l ∧
      ∃ d, l.LaidOut p.graph p.objective p.constraints p.vars d := by
  obtain ⟨l', hl, h⟩ := bind_eq_ok.mp h
  have hgraph := mapError_eq_ok.mp hl
  obtain ⟨d, hd⟩ := ofGraph_spec hgraph
  split at h
  next => cases h
  next hlen =>
    obtain rfl := Except.ok.inj h
    exact ⟨by simpa [hd.dimension_eq] using hlen, hgraph, d, hd⟩

end Lagrangian

/-- A problem whose Lagrangian can be laid out, from a start point that fits. -/
def Problem.Solvable (p : Problem α) : Prop := ∃ l, Lagrangian.ofProblem p = .ok l

/-- Whether a problem can be solved does not depend on the start point. -/
theorem Problem.Solvable.restarted {p p' : Problem α} (h : p.Solvable) {x : List α}
    (hx : p.restarted x = .ok p') : p'.Solvable := by
  obtain ⟨l, hl⟩ := h
  obtain ⟨-, hgraph, d, hd⟩ := Lagrangian.ofProblem_spec hl
  unfold Problem.restarted at hx
  split at hx
  next => cases hx
  next hlen =>
    obtain rfl := Except.ok.inj hx
    refine ⟨l, ?_⟩
    have hfit : ¬x.length ≠ l.dimension := by
      rw [hd.dimension_eq]
      exact hlen
    simp only [Lagrangian.ofProblem, hgraph, Except.mapError, ok_bind, if_neg hfit]
    rfl

end Autodiff
