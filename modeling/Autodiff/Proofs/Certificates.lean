import Autodiff.Proofs.LagrangianGradient
import Autodiff.Proofs.SolverSequences

namespace Autodiff

namespace Problem

variable {α : Type}

/-- All handles of a problem belong to its graph. -/
structure Fits (p : Problem α) : Prop where
  objective : p.objective.index < p.graph.size
  constraints : ∀ c ∈ p.constraints, c.index < p.graph.size
  vars : ∀ v ∈ p.vars, v.expr.index < p.graph.size

theorem checkNode_eq_ok {g : Graph α} {e : Expr} (h : checkNode g e = .ok ()) :
    e.index < g.size := by
  unfold checkNode Graph.node at h
  cases hn : g.nodes[e.index]? with
  | none =>
    rw [hn] at h
    cases h
  | some node => exact Graph.size_of_node hn

theorem forM_checkNode_eq_ok {g : Graph α} {es : List Expr} (h : es.forM (checkNode g) = .ok ()) :
    ∀ e ∈ es, e.index < g.size := by
  induction es with
  | nil => simp
  | cons e es ih =>
    have hcons : (checkNode g e >>= fun _ => es.forM (checkNode g)) = .ok () := h
    obtain ⟨_, he, hrest⟩ := bind_eq_ok.mp hcons
    intro e' he'
    rcases List.mem_cons.mp he' with rfl | he'
    · exact checkNode_eq_ok he
    · exact ih hrest e' he'

theorem fits_of_ofParts {g : Graph α} {objective : Expr} {constraints : List Expr}
    {vars : List Var} {start : List α} {p : Problem α}
    (h : ofParts g objective constraints vars start = .ok p) : p.Fits := by
  unfold ofParts at h
  split at h
  next => cases h
  next =>
    obtain ⟨_, ho, h₁⟩ := bind_eq_ok.mp h
    obtain ⟨_, hc, h₂⟩ := bind_eq_ok.mp h₁
    obtain ⟨_, hv, h₃⟩ := bind_eq_ok.mp h₂
    obtain rfl := Except.ok.inj h₃
    refine ⟨checkNode_eq_ok ho, forM_checkNode_eq_ok hc, fun v hmem => ?_⟩
    exact forM_checkNode_eq_ok hv v.expr (List.mem_map_of_mem hmem)

end Problem

variable {α : Type} [ExactScalar α]

/-- Values and gradients of an objective and its constraints at a point. -/
structure Measurement (α : Type) where
  value : α
  constraints : List α
  objectiveGradient : List α
  constraintGradients : List (List α)

/-- The norm of the gradient of a Lagrangian, from measured gradients. -/
def Measurement.gradientNorm (s : Measurement α) (multipliers : List α) : α :=
  norm (lagrangianGradient s.objectiveGradient multipliers s.constraintGradients)

/-- A measurement of the expressions of a problem themselves, one by one. -/
structure Problem.Measures (p : Problem α) (x : List α) (s : Measurement α) : Prop where
  value : p.graph.evaluate p.objective p.vars x = .ok s.value
  constraints : p.constraints.mapM (fun c => p.graph.evaluate c p.vars x) = .ok s.constraints
  objectiveGradient : p.graph.differentiate p.objective p.vars x = .ok s.objectiveGradient
  constraintGradients :
    p.constraints.mapM (fun c => p.graph.differentiate c p.vars x) = .ok s.constraintGradients

/-- What an iterate reports is measured at its own point, and its gradient norm is that of the
Lagrangian with its own multipliers. -/
structure Iterate.Certified (it : Iterate α) (p : Problem α) (s : Measurement α) : Prop where
  measures : p.Measures it.x s
  value : it.value = s.value
  constraintNorm : it.constraintNorm = norm s.constraints
  lagrangianGradientNorm : it.lagrangianGradientNorm = s.gradientNorm it.multipliers

/-- In the domain of a Lagrangian its objective and its constraints can be measured one by one. -/
theorem Lagrangian.LaidOut.measures {p : Problem α} {l : Lagrangian α} {d : Blueprint α}
    (hd : l.LaidOut p.graph p.objective p.constraints p.vars d)
    (hobjective : p.objective.index < p.graph.size)
    (hvars : ∀ v ∈ p.vars, v.expr.index < p.graph.size) {x : List α}
    (hx : x.length = p.vars.length) (ha : l.Admits x) :
    let value := fun e : Expr => p.graph.valueAt (assignment p.vars x) e.index
    let gradient := fun e : Expr => p.vars.map fun v =>
      p.graph.tangentAt (assignment p.vars x) (Graph.towards v.expr.index) e.index
    p.Measures x ⟨value p.objective, p.constraints.map value, gradient p.objective,
      p.constraints.map gradient⟩ := by
  intro value gradient
  have hb := hd.binds_old hvars
  have hvalue := hd.evaluate_old hx ha hb hd.uses_objective hobjective
  have hvalues : ∀ c ∈ p.constraints, p.graph.evaluate c p.vars x = .ok (value c) := fun c hc =>
    hd.evaluate_old hx ha hb (hd.uses_constraint hc) (hd.constraint_lt c hc)
  exact ⟨hvalue, mapM_eq_ok _ hvalues, Graph.differentiate_of_evaluate hvalue,
    mapM_eq_ok _ fun c hc => Graph.differentiate_of_evaluate (hvalues c hc)⟩

theorem along_zero (x d : List α) (h : x.length = d.length) : along x d 0 = x := by
  have hstep : ∀ xi di : α, xi + 0 * di = xi := fun xi di => by rw [zero_mul, add_zero]
  rw [along, h, Nat.sub_self, List.replicate_zero, List.append_nil]
  simp only [hstep]
  induction x generalizing d with
  | nil => rfl
  | cons xi x ih =>
    cases d with
    | nil => cases h
    | cons di d => rw [List.zipWith_cons_cons, ih d (Nat.succ.inj h)]

variable [SquarePowers α]

namespace Lagrangian

variable {p : Problem α} {l : Lagrangian α} {start multipliers : List α}

/-- Wherever the minimisation of a Lagrangian ends, its gradient norm belongs to the plain Lagrangian
with updated multipliers. -/
theorem minimum_certified (hp : p.Fits) (hl : ofProblem p = .ok l)
    (hstart : start.length = p.vars.length) (hm : multipliers.length = l.constraints.length)
    {penalty : α} {config : Lbfgs α} {r : Minimum α}
    (hr : (config.minimize start).runWith (l.reply multipliers penalty) = .ok r) {value : α}
    {constraints : List α} (hmeasure : l.measure r.x = .ok (value, constraints)) :
    r.x.length = p.vars.length ∧ l.Admits r.x ∧ constraints.length = l.constraints.length ∧
      ∃ s, p.Measures r.x s ∧ value = s.value ∧ constraints = s.constraints ∧
        r.gradientNorm =
          s.gradientNorm (MultiplierMethod.updateMultipliers penalty multipliers constraints) := by
  obtain ⟨-, -, d, hd⟩ := ofProblem_spec hl
  obtain ⟨hx, hreply, hnorm, -⟩ :=
    (hd.minimize_spec (fun _ => along_zero) hstart hm penalty config).of_ok hr
  have ha : l.Admits r.x := by
    obtain ⟨v, hv, -⟩ := bind_eq_ok.mp hmeasure
    exact ⟨v, hv⟩
  have hpair := Except.ok.inj (hmeasure.symm.trans (hd.measure_eq hx ha))
  obtain ⟨hvalue, hconstraints⟩ := Prod.mk.inj hpair
  rw [hd.valueAt_root_zero hx hp.objective] at hvalue
  rw [reply, Tape.reply, ← evaluate, hd.evaluate_of_admits hx hm penalty ha] at hreply
  have hgradient := (Reply.mk.inj hreply).2
  rw [hd.gradient_eq hx hm hp.objective hp.constraints] at hgradient
  refine ⟨hx, ha, ?_, _, hd.measures hp.objective hp.vars hx ha, hvalue, hconstraints, ?_⟩
  · rw [hconstraints, List.length_map, hd.length_constraints]
  · rw [hnorm, ← hgradient, hconstraints]
    rfl

end Lagrangian

/-- The multipliers in force before the `k`-th of a list of iterates: those of the iterate before it,
or the first ones. -/
def multipliersBefore (first : List α) : List (Iterate α) → Nat → List α
  | it :: rest, k + 1 => multipliersBefore it.multipliers rest k
  | _, _ => first

namespace MultiplierMethod

variable {p : Problem α} {l : Lagrangian α} {m : MultiplierMethod α}

/-- What an iterate of the multiplier method states about itself, when it comes after the given
multipliers. -/
structure Attests (m : MultiplierMethod α) (p : Problem α) (multipliers : List α) (it : Iterate α)
    (s : Measurement α) : Prop where
  certified : it.Certified p s
  multipliers : it.multipliers = updateMultipliers it.penalty multipliers s.constraints
  converged : it.status = .converged →
    norm s.constraints ≤ m.constraintTolerance ∧
      s.gradientNorm it.multipliers ≤ m.lagrangianGradientTolerance

theorem step_attests (hp : p.Fits) (hl : Lagrangian.ofProblem p = .ok l) {left : Nat}
    {s next : OuterState α} (hs : Stands l s) {it : Iterate α}
    (h : m.step l left s = .ok (it, next)) :
    Stands l next ∧ next.multipliers = it.multipliers ∧
      ∃ sample, m.Attests p s.multipliers it sample := by
  obtain ⟨-, -, d, hd⟩ := Lagrangian.ofProblem_spec hl
  obtain ⟨r, hr, h₁⟩ := bind_eq_ok.mp h
  obtain ⟨⟨value, constraints⟩, hmeasure, h₂⟩ := bind_eq_ok.mp h₁
  obtain ⟨hit, hnext⟩ := Prod.mk.inj (Except.ok.inj h₂)
  obtain ⟨hx, ha, hlength, sample, hmeasures, hvalue, hconstraints, hnorm⟩ :=
    Lagrangian.minimum_certified hp hl (hs.length_x.trans hd.dimension_eq) hs.length_multipliers
      (mapError_eq_ok.mp hr) hmeasure
  subst hit hnext hvalue hconstraints
  refine ⟨⟨hx.trans hd.dimension_eq.symm, ?_, ha⟩, rfl, sample,
    ⟨hmeasures, rfl, rfl, hnorm⟩, rfl, fun hstatus => ?_⟩
  · simp only [updatePenalty, updateMultipliers, List.length_zipWith, hs.length_multipliers, hlength,
      Nat.min_self]
  · dsimp only at hstatus
    split at hstatus
    next hconverged => exact ⟨hconverged.1, hnorm ▸ hconverged.2⟩
    next =>
      split at hstatus
      next => cases hstatus
      next => cases hstatus

theorem iterates_attest (hp : p.Fits) (hl : Lagrangian.ofProblem p = .ok l) (left : Nat)
    {s : OuterState α} (hs : Stands l s) (k : Nat) {it : Iterate α}
    (h : (m.iterates l left s).toList[k]? = some it) :
    ∃ sample, m.Attests p (multipliersBefore s.multipliers (m.iterates l left s).toList k) it
      sample := by
  induction left generalizing s k with
  | zero =>
    unfold iterates at h ⊢
    split at h
    next cause _ => simp [toList_ending] at h
    next it' next hstep =>
      cases k with
      | zero =>
        cases h
        exact (step_attests hp hl hs hstep).2.2
      | succ k => cases h
  | succ left ih =>
    unfold iterates at h ⊢
    split at h
    next cause _ => simp [toList_ending] at h
    next it' next hstep =>
      obtain ⟨hnext, hmultipliers, hattests⟩ := step_attests hp hl hs hstep
      cases k with
      | zero =>
        cases h
        exact hattests
      | succ k =>
        simp only [Iterates.toList, List.getElem?_cons_succ, multipliersBefore] at h ⊢
        split at h
        next hstatus =>
          rw [if_pos hstatus, ← hmultipliers]
          exact ih hnext k h
        next => cases h

end MultiplierMethod

namespace PenaltyMethod

variable {p : Problem α} {l : Lagrangian α} {m : PenaltyMethod α} {it : Iterate α}

theorem run_certified (hp : p.Fits) (hl : Lagrangian.ofProblem p = .ok l)
    (h : m.run l p.start = .ok it) :
    it.penalty = m.penalty ∧ ∃ s, it.Certified p s ∧
      it.multipliers = s.constraints.map (Scalar.two * m.penalty * ·) := by
  obtain ⟨hstart, -, d, hd⟩ := Lagrangian.ofProblem_spec hl
  have hm : (List.replicate l.constraints.length (0 : α)).length = l.constraints.length :=
    List.length_replicate
  obtain ⟨_, -, h₁⟩ := bind_eq_ok.mp h
  obtain ⟨r, hr, h₂⟩ := bind_eq_ok.mp h₁
  obtain ⟨⟨value, constraints⟩, hmeasure, h₃⟩ := bind_eq_ok.mp h₂
  obtain rfl := Except.ok.inj h₃
  have hmeasure' := mapError_eq_ok.mp hmeasure
  obtain ⟨-, -, hlength, s, hmeasures, hvalue, hconstraints, hnorm⟩ :=
    Lagrangian.minimum_certified hp hl hstart hm (mapError_eq_ok.mp hr) hmeasure'
  rw [← hlength, updateMultipliers_zeros] at hnorm
  subst hvalue hconstraints
  exact ⟨rfl, s, ⟨hmeasures, rfl, rfl, hnorm⟩, rfl⟩

end PenaltyMethod

/-- In exact arithmetic every iterate reports the value, the constraint norm and the norm of the
gradient of the Lagrangian at its own point with its own multipliers, whatever the configuration and
wherever the minimisations ended. With the multiplier method these are the multipliers before,
updated by the constraints, and a converged iterate is stationary within the tolerances. -/
theorem iterates_certified {g : Graph α} {objective : Expr} {constraints : List Expr}
    {vars : List Var} {start : List α} {p : Problem α}
    (h : Problem.ofParts g objective constraints vars start = .ok p) :
    (∀ (m : MultiplierMethod α) (its : Iterates α), (m.solver.start p).outcome = .ok its →
      ∀ (k : Nat) (it : Iterate α), its.toList[k]? = some it →
        let zeros := List.replicate p.constraints.length 0
        ∃ s, it.Certified p s ∧
          it.multipliers = MultiplierMethod.updateMultipliers it.penalty
            (multipliersBefore zeros its.toList k) s.constraints ∧
          (it.status = .converged → norm s.constraints ≤ m.constraintTolerance ∧
            s.gradientNorm it.multipliers ≤ m.lagrangianGradientTolerance)) ∧
    ∀ (m : PenaltyMethod α) (its : Iterates α), (m.solver.start p).outcome = .ok its →
      ∀ it ∈ its.toList, ∃ s, it.Certified p s ∧ it.penalty = m.penalty ∧
        it.multipliers = s.constraints.map (Scalar.two * m.penalty * ·) := by
  have hp := Problem.fits_of_ofParts h
  constructor
  · intro m its hits k it hit zeros
    obtain ⟨l, hl, rfl, hs⟩ := MultiplierMethod.outcome_eq_ok hits
    obtain ⟨-, -, d, hd⟩ := Lagrangian.ofProblem_spec hl
    obtain ⟨s, hattests⟩ := MultiplierMethod.iterates_attest hp hl _ hs k hit
    have hzeros : zeros = (m.initial p.start (List.replicate l.constraints.length 0)).multipliers := by
      simp only [zeros, ← hd.length_constraints]
      rfl
    rw [← hzeros] at hattests
    exact ⟨s, hattests.certified, hattests.multipliers, hattests.converged⟩
  · intro m its hits it hmem
    obtain ⟨l, hl, hits'⟩ := bind_eq_ok.mp hits
    obtain ⟨it', hrun, hits''⟩ := bind_eq_ok.mp hits'
    obtain rfl := Except.ok.inj hits''
    obtain rfl : it = it' := by simpa [Iterates.ofList, Iterates.toList] using hmem
    obtain ⟨hpenalty, s, hcertified, hmultipliers⟩ := PenaltyMethod.run_certified hp hl hrun
    exact ⟨s, hcertified, hpenalty, hmultipliers⟩

def squareGraph : Graph ℚ :=
  ⟨#[.variable ⟨0⟩, .power ⟨0⟩ 2, .constant (-1), .sum [⟨0⟩, ⟨2⟩]], 1⟩

/-- Minimise a square, starting from zero, where the variable has to be one. -/
def squareProblem : Problem ℚ := ⟨squareGraph, ⟨1⟩, [⟨3⟩], [⟨⟨0⟩, ⟨0⟩⟩], [0]⟩

def squareMethod : MultiplierMethod ℚ where
  initialPenalty := 10
  maxPenalty := 1000
  penaltyGrowth := 10
  constraintTolerance := 1 / 100
  lagrangianGradientTolerance := 1 / 100
  minInnerTolerance := 1 / 1000
  minViolationTarget := 1 / 1000
  maxOuterIterations := 5
  lbfgs := ⟨5, ⟨5, 1 / 1000, 0, 0⟩, ⟨1 / 10000, 9 / 10, 10, 20, 30⟩⟩

theorem iterates_certified_square : ∃ (its : Iterates ℚ) (it : Iterate ℚ) (s : Measurement ℚ),
    (squareMethod.solver.start squareProblem).outcome = .ok its ∧ its.toList[1]? = some it ∧
      it.status = .converged ∧ it.Certified squareProblem s ∧ norm s.constraints ≤ 1 / 100 ∧
      s.gradientNorm it.multipliers ≤ 1 / 100 := by
  have hp : Problem.ofParts squareGraph ⟨1⟩ [⟨3⟩] [⟨⟨0⟩, ⟨0⟩⟩] [0] = .ok squareProblem := rfl
  have hstatus : ((squareMethod.solver.start squareProblem).outcome.toOption.bind fun its =>
      its.toList[1]?.map Iterate.status) = some .converged := by decide +kernel
  obtain ⟨its, hits, hstatus'⟩ := Option.bind_eq_some_iff.mp hstatus
  obtain ⟨it, hit, hconverged⟩ := Option.map_eq_some_iff.mp hstatus'
  have hok : (squareMethod.solver.start squareProblem).outcome = .ok its := by
    cases ho : (squareMethod.solver.start squareProblem).outcome with
    | error e =>
      rw [ho] at hits
      cases hits
    | ok its' =>
      rw [ho] at hits
      rw [Option.some.inj hits]
  obtain ⟨s, hcertified, -, hwithin⟩ := (iterates_certified hp).1 squareMethod its hok 1 it hit
  exact ⟨its, it, s, hok, hit, hconverged, hcertified, (hwithin hconverged).1, (hwithin hconverged).2⟩

end Autodiff
