import Autodiff.Proofs.Certificates
import Autodiff.Proofs.NewVariables
import Autodiff.Proofs.ScalingArithmetic

namespace Autodiff

open Scalar (AtLeast IsDefined)

variable {α : Type} [Scalar α]

/-- A round of the outer loop: where the loop stands before it, and the iterate it gives. -/
structure OuterRound (α : Type) where
  state : OuterState α
  iterate : Iterate α

/-- The value of an expression of a problem at a point. -/
def Problem.valueAt (p : Problem α) (x : List α) (e : Expr) : α :=
  p.graph.valueAt (assignment p.vars x) e.index

/-- What a multiplier comes to after some iterates: each adds its weight times the value of the
constraint at its point. -/
def accumulated (p : Problem α) (start : α) (its : List (Iterate α)) (c : Expr) : α :=
  its.foldl (fun sum it => sum + it.penalty * p.valueAt it.x c) start

namespace MultiplierMethod

variable {m : MultiplierMethod α} {p : Problem α} {l : Lagrangian α} {s next : OuterState α}
  {it : Iterate α} {left : Nat} {rounds : List (OuterRound α)}

/-- A weight above zero that has room to grow, and a growth that does not make it smaller. -/
structure WellConfigured (m : MultiplierMethod α) : Prop where
  initialPenalty_pos : 0 < m.initialPenalty
  initialPenalty_le : m.initialPenalty ≤ m.maxPenalty
  one_le_penaltyGrowth : 1 ≤ m.penaltyGrowth

/-- The rounds of a run from a state on, each from the state that the one before it left, with the
number of rounds that are left after the next one. A run ends where a round gives no iterate, or
with the first iterate that is final. -/
inductive Runs (m : MultiplierMethod α) (l : Lagrangian α) :
    Nat → OuterState α → List (OuterRound α) → Prop
  | failed {left : Nat} {s : OuterState α} {cause : Failure α}
      (hstep : m.step l left s = .error cause) : Runs m l left s []
  | last {left : Nat} {s next : OuterState α} {it : Iterate α}
      (hstep : m.step l left s = .ok (it, next)) (hs : it.status ≠ .inProgress) :
      Runs m l left s [⟨s, it⟩]
  | more {left : Nat} {s next : OuterState α} {it : Iterate α} {rounds : List (OuterRound α)}
      (hstep : m.step l (left + 1) s = .ok (it, next)) (hs : it.status = .inProgress)
      (hrest : Runs m l left next rounds) : Runs m l (left + 1) s (⟨s, it⟩ :: rounds)

/-- The iterate of a round is what the minimisation of the Lagrangian with given multipliers and
its own weight finds from a given start. -/
def Minimizes (m : MultiplierMethod α) (l : Lagrangian α) (start multipliers : List α)
    (r : OuterRound α) : Prop :=
  ∃ result, ((m.lbfgs.withGradientTolerance r.state.innerTolerance).minimize start).runWith
    (l.reply multipliers r.iterate.penalty) = .ok result ∧ r.iterate.x = result.x

/-- The weight of a round is within its limit, and its tolerances keep to their floors. -/
structure Within (m : MultiplierMethod α) (s : OuterState α) : Prop where
  penalty_pos : 0 < s.penalty
  penalty_le : s.penalty ≤ m.maxPenalty
  violationTarget : AtLeast m.minViolationTarget s.violationTarget
  innerTolerance : AtLeast m.minInnerTolerance s.innerTolerance

/-- How a round goes on from the one before it. -/
structure Continues (m : MultiplierMethod α) (l : Lagrangian α) (r r' : OuterRound α) : Prop where
  penalty_le : r.iterate.penalty ≤ r'.iterate.penalty
  penalty_eq : ¬r.state.violationTarget < r.iterate.constraintNorm →
    r'.iterate.penalty = r.iterate.penalty
  innerTolerance_le : 1 ≤ m.initialPenalty → r'.state.innerTolerance ≤ r.state.innerTolerance
  minimizes : m.Minimizes l r.iterate.x r.iterate.multipliers r'

section Steps

theorem step_eq_ok (h : m.step l left s = .ok (it, next)) : ∃ result value constraints,
    m.subproblem l s = .ok result ∧ l.measure result.x = .ok (value, constraints) ∧
      it.x = result.x ∧ it.constraintNorm = norm constraints ∧ it.penalty = s.penalty ∧
      it.multipliers = updateMultipliers s.penalty s.multipliers constraints ∧
      next = m.updatePenalty { s with x := it.x, multipliers := it.multipliers }
        it.constraintNorm := by
  obtain ⟨result, hresult, h₁⟩ := bind_eq_ok.mp h
  obtain ⟨⟨value, constraints⟩, hmeasure, h₂⟩ := bind_eq_ok.mp h₁
  obtain ⟨rfl, rfl⟩ := Prod.mk.inj (Except.ok.inj h₂)
  exact ⟨result, value, constraints, mapError_eq_ok.mp hresult, hmeasure, rfl, rfl, rfl, rfl, rfl⟩

theorem step_penalty (h : m.step l left s = .ok (it, next)) : it.penalty = s.penalty := by
  obtain ⟨_, _, _, -, -, -, -, hpenalty, -⟩ := step_eq_ok h
  exact hpenalty

theorem step_next (h : m.step l left s = .ok (it, next)) :
    next = m.updatePenalty { s with x := it.x, multipliers := it.multipliers }
      it.constraintNorm := by
  obtain ⟨_, _, _, -, -, -, -, -, -, hnext⟩ := step_eq_ok h
  exact hnext

/-- The last round that is allowed gives a final iterate. -/
theorem step_final (h : m.step l 0 s = .ok (it, next)) : it.status ≠ .inProgress := by
  obtain ⟨result, -, h₁⟩ := bind_eq_ok.mp h
  obtain ⟨⟨value, constraints⟩, -, h₂⟩ := bind_eq_ok.mp h₁
  obtain ⟨rfl, -⟩ := Prod.mk.inj (Except.ok.inj h₂)
  dsimp only
  split
  next => simp
  next => simp

theorem step_minimizes {r : OuterRound α} (h : m.step l left r.state = .ok (r.iterate, next)) :
    m.Minimizes l r.state.x r.state.multipliers r := by
  obtain ⟨result, _, _, hresult, -, hx, -, hpenalty, -⟩ := step_eq_ok h
  refine ⟨result, ?_, hx⟩
  rw [hpenalty]
  exact hresult

end Steps

section Runs

theorem runs_iterates (m : MultiplierMethod α) (l : Lagrangian α) (left : Nat) (s : OuterState α) :
    ∃ rounds, (m.iterates l left s).toList = rounds.map OuterRound.iterate ∧
      m.Runs l left s rounds := by
  induction left generalizing s with
  | zero =>
    unfold iterates
    split
    next cause hstep => exact ⟨[], toList_ending cause, .failed hstep⟩
    next it next hstep => exact ⟨[⟨s, it⟩], rfl, .last hstep (step_final hstep)⟩
  | succ left ih =>
    unfold iterates
    split
    next cause hstep => exact ⟨[], toList_ending cause, .failed hstep⟩
    next it next hstep =>
      by_cases hstatus : it.status = .inProgress
      · obtain ⟨rounds, hlist, hrest⟩ := ih next
        refine ⟨⟨s, it⟩ :: rounds, ?_, .more hstep hstatus hrest⟩
        simp only [Iterates.toList, if_pos hstatus, hlist, List.map_cons]
      · refine ⟨[⟨s, it⟩], ?_, .last hstep hstatus⟩
        simp only [Iterates.toList, if_neg hstatus, List.map_cons, List.map_nil]

theorem Runs.head_state (h : m.Runs l left s rounds) : ∀ r ∈ rounds.head?, r.state = s := by
  cases h with
  | failed => simp
  | last => simp
  | more => simp

theorem Runs.isChain (h : m.Runs l left s rounds) :
    rounds.IsChain fun r r' => ∃ left, m.step l left r.state = .ok (r.iterate, r'.state) := by
  induction h with
  | failed => exact .nil
  | last => exact .singleton _
  | more hstep _ hrest ih =>
    refine List.isChain_cons.mpr ⟨fun r hr => ?_, ih⟩
    rw [hrest.head_state r hr]
    exact ⟨_, hstep⟩

/-- Every round of a run is a step, and what every step preserves holds before it. -/
theorem Runs.forall_round {P : OuterState α → Prop}
    (hP : ∀ left s it next, m.step l left s = .ok (it, next) → P s → P next)
    (h : m.Runs l left s rounds) (hs : P s) :
    ∀ r ∈ rounds, P r.state ∧ ∃ left next, m.step l left r.state = .ok (r.iterate, next) := by
  induction h with
  | failed => simp
  | last hstep =>
    intro r hr
    obtain rfl := List.mem_singleton.mp hr
    exact ⟨hs, _, _, hstep⟩
  | more hstep _ _ ih =>
    intro r hr
    rcases List.mem_cons.mp hr with rfl | hr
    · exact ⟨hs, _, _, hstep⟩
    · exact ih (hP _ _ _ _ hstep hs) r hr

end Runs

section Schedule

/-- Neither the point nor the multipliers matter. -/
theorem Within.moved (hs : m.Within s) (x multipliers : List α) :
    m.Within { s with x := x, multipliers := multipliers } :=
  ⟨hs.penalty_pos, hs.penalty_le, hs.violationTarget, hs.innerTolerance⟩

theorem updatePenalty_penalty_eq {norm : α} (h : ¬s.violationTarget < norm) :
    (m.updatePenalty s norm).penalty = s.penalty := by
  simp only [updatePenalty, h, decide_false, Bool.false_eq_true, if_false]

theorem updatePenalty_penalty_of_missed {norm : α} (h : s.violationTarget < norm) :
    (m.updatePenalty s norm).penalty = Scalar.min (s.penalty * m.penaltyGrowth) m.maxPenalty := by
  simp only [updatePenalty, h, decide_true, if_true]

variable [ScalingScalar α]

theorem initial_within (hm : m.WellConfigured) (start multipliers : List α) :
    m.Within (m.initial start multipliers) where
  penalty_pos := hm.initialPenalty_pos
  penalty_le := hm.initialPenalty_le
  violationTarget := Scalar.atLeast_max _ _
  innerTolerance := Scalar.atLeast_max _ _

/-- The weight does not fall, and keeps to its limit. -/
theorem updatePenalty_penalty (hm : m.WellConfigured) (hs : m.Within s) (norm : α) :
    s.penalty ≤ (m.updatePenalty s norm).penalty ∧
      (m.updatePenalty s norm).penalty ≤ m.maxPenalty := by
  have hdefined := RoundedScalar.defined_of_le _ _ hs.penalty_le
  have hgrown := ScalingScalar.le_mul _ _ hs.penalty_pos hm.one_le_penaltyGrowth
  by_cases hmissed : s.violationTarget < norm
  · rw [updatePenalty_penalty_of_missed hmissed]
    exact ⟨Scalar.le_min hgrown hs.penalty_le,
      Scalar.min_le_right (RoundedScalar.defined_of_le _ _ hgrown).2 hdefined.2⟩
  · rw [updatePenalty_penalty_eq hmissed]
    exact ⟨hdefined.1, hs.penalty_le⟩

theorem updatePenalty_within (hm : m.WellConfigured) (hs : m.Within s) (norm : α) :
    m.Within (m.updatePenalty s norm) := by
  obtain ⟨hle, hmax⟩ := updatePenalty_penalty hm hs norm
  exact ⟨RoundedScalar.lt_of_lt_of_le hs.penalty_pos hle, hmax, Scalar.atLeast_max _ _,
    Scalar.atLeast_max _ _⟩

theorem step_within (hm : m.WellConfigured) (h : m.step l left s = .ok (it, next))
    (hs : m.Within s) : m.Within next := by
  obtain rfl := step_next h
  exact updatePenalty_within hm (hs.moved _ _) _

/-- What keeps the gradient tolerance from growing: a weight from one on, and a tolerance that is at
its floor if it is above one. -/
structure Settles (m : MultiplierMethod α) (s : OuterState α) : Prop where
  one_le_penalty : 1 ≤ s.penalty
  nonneg : ¬s.innerTolerance < 0
  bounded : s.innerTolerance ≤ 1 ∨ s.innerTolerance ≤ m.minInnerTolerance

theorem initial_settles (h : 1 ≤ m.initialPenalty) (start multipliers : List α) :
    m.Settles (m.initial start multipliers) := by
  have hone : ¬(1 : α) < 0 := RoundedScalar.lt_asymm RoundedScalar.zero_lt_one
  have hself : (1 : α) ≤ 1 := (RoundedScalar.defined_of_le _ _ h).1
  have hdefined := ScalingScalar.div_defined _ _ hone hself h
  have hnonneg : ¬1 / m.initialPenalty < 0 :=
    RoundedScalar.div_nonneg _ _ hone (RoundedScalar.lt_of_lt_of_le RoundedScalar.zero_lt_one h)
  exact ⟨h, Scalar.max_nonneg hnonneg (.inl hdefined),
    Scalar.max_le_or_le_right (ScalingScalar.div_le _ _ hone hdefined h)⟩

/-- The next gradient tolerance is not larger. -/
theorem updatePenalty_settles (hm : m.WellConfigured) (hw : m.Within s) (hs : m.Settles s)
    (norm : α) : (m.updatePenalty s norm).innerTolerance ≤ s.innerTolerance ∧
      m.Settles (m.updatePenalty s norm) := by
  obtain ⟨weight, hweight⟩ : ∃ weight, (m.updatePenalty s norm).penalty = weight := ⟨_, rfl⟩
  have hone : 1 ≤ weight := by
    rw [← hweight]
    exact RoundedScalar.le_trans _ _ _ hs.one_le_penalty (updatePenalty_penalty hm hw norm).1
  have htolerance : (m.updatePenalty s norm).innerTolerance =
      Scalar.max (s.innerTolerance / weight) m.minInnerTolerance := by
    rw [← hweight]
    rfl
  have hnonneg : ¬s.innerTolerance / weight < 0 := RoundedScalar.div_nonneg _ _ hs.nonneg
    (RoundedScalar.lt_of_lt_of_le RoundedScalar.zero_lt_one hone)
  have hquotient (h : IsDefined (s.innerTolerance / weight)) :
      s.innerTolerance / weight ≤ s.innerTolerance :=
    ScalingScalar.div_le _ _ hs.nonneg h hone
  -- A tolerance that is at its floor may be infinite, and its quotient undefined.
  have hcases : IsDefined (s.innerTolerance / weight) ∨
      IsDefined m.minInnerTolerance ∧ ¬m.minInnerTolerance < 0 := by
    rcases hs.bounded with hle | hle
    · exact .inl (ScalingScalar.div_defined _ _ hs.nonneg hle hone)
    · obtain ⟨hdefined, hfloor⟩ := RoundedScalar.defined_of_le _ _ hle
      exact .inr ⟨hfloor, RoundedScalar.not_neg_of_not_lt hdefined hs.nonneg
        (RoundedScalar.not_lt_of_le hle)⟩
  have hle : (m.updatePenalty s norm).innerTolerance ≤ s.innerTolerance := by
    rw [htolerance]
    exact Scalar.max_le hquotient hw.innerTolerance.le (hcases.imp_right And.left)
  refine ⟨hle, hweight ▸ hone, ?_, ?_⟩
  · rw [htolerance]
    exact Scalar.max_nonneg hnonneg (hcases.imp_right And.right)
  · exact hs.bounded.imp (RoundedScalar.le_trans _ _ _ hle) (RoundedScalar.le_trans _ _ _ hle)

theorem step_settles (hm : m.WellConfigured) (h : m.step l left s = .ok (it, next))
    (hw : m.Within s) (hs : m.Settles s) :
    next.innerTolerance ≤ s.innerTolerance ∧ m.Settles next := by
  obtain rfl := step_next h
  refine updatePenalty_settles hm (hw.moved _ _) ?_ _
  exact ⟨hs.one_le_penalty, hs.nonneg, hs.bounded⟩

theorem step_penalty_next (hm : m.WellConfigured) (h : m.step l left s = .ok (it, next))
    (hs : m.Within s) : s.penalty ≤ next.penalty ∧
      (¬s.violationTarget < it.constraintNorm → next.penalty = s.penalty) := by
  obtain rfl := step_next h
  exact ⟨(updatePenalty_penalty hm (hs.moved _ _) _).1, fun hkept => updatePenalty_penalty_eq hkept⟩

theorem continues_of_steps (hm : m.WellConfigured) {r r' : OuterRound α} {left' : Nat}
    (hw : m.Within r.state) (hs : 1 ≤ m.initialPenalty → m.Settles r.state)
    (h : m.step l left r.state = .ok (r.iterate, r'.state))
    (h' : m.step l left' r'.state = .ok (r'.iterate, next)) : m.Continues l r r' := by
  obtain ⟨hle, heq⟩ := step_penalty_next hm h hw
  rw [← step_penalty h, ← step_penalty h'] at hle heq
  refine ⟨hle, heq, fun hone => (step_settles hm h hw (hs hone)).1, ?_⟩
  have hminimizes := step_minimizes h'
  rw [step_next h] at hminimizes
  exact hminimizes

end Schedule

section Multipliers

variable [RoundedScalar α]

/-- Each multiplier grows by the weight of the step times the value of its constraint. -/
theorem step_multipliers (hl : Lagrangian.ofProblem p = .ok l) (hs : Stands l s) {start : Expr → α}
    (hstart : s.multipliers = p.constraints.map start) (h : m.step l left s = .ok (it, next)) :
    Stands l next ∧ next.multipliers = it.multipliers ∧
      p.constraints.mapM (fun c => p.graph.evaluate c p.vars it.x) =
        .ok (p.constraints.map (p.valueAt it.x)) ∧
      it.multipliers =
        p.constraints.map fun c => start c + it.penalty * p.valueAt it.x c := by
  obtain ⟨-, hgraph, d, hd⟩ := Lagrangian.ofProblem_spec hl
  obtain ⟨result, value, constraints, hresult, hmeasure, hx, -, hpenalty, hmultipliers, rfl⟩ :=
    step_eq_ok h
  obtain ⟨hlength, -⟩ :=
    (hd.minimize_spec (fun hlt => absurd hlt (RoundedScalar.lt_irrefl 0))
      (hs.length_x.trans hd.dimension_eq) hs.length_multipliers s.penalty
      (m.lbfgs.withGradientTolerance s.innerTolerance)).of_ok hresult
  rw [← hx] at hmeasure hlength
  have hadmits : l.Admits it.x := by
    obtain ⟨v, hv, -⟩ := bind_eq_ok.mp hmeasure
    exact ⟨v, hv⟩
  have hconstraints : constraints = p.constraints.map (p.valueAt it.x) :=
    (Prod.mk.inj (Except.ok.inj (hmeasure.symm.trans (hd.measure_eq hlength hadmits)))).2
  have hbinds := hd.binds_old (Lagrangian.vars_lt_of_ofGraph hgraph)
  rw [hconstraints, hstart, ← hpenalty, updateMultipliers, List.zipWith_map,
    List.zipWith_self] at hmultipliers
  refine ⟨⟨hlength.trans hd.dimension_eq.symm, ?_, hadmits⟩, rfl, ?_, hmultipliers⟩
  · simp only [updatePenalty, hmultipliers, List.length_map, hd.length_constraints]
  · exact mapM_eq_ok _ fun c hc =>
      hd.evaluate_old hlength hadmits hbinds (hd.uses_constraint hc) (hd.constraint_lt c hc)

theorem Runs.multipliers (hl : Lagrangian.ofProblem p = .ok l) (h : m.Runs l left s rounds)
    (hs : Stands l s) {start : Expr → α} (hstart : s.multipliers = p.constraints.map start)
    {k : Nat} {r : OuterRound α} (hr : rounds[k]? = some r) :
    p.constraints.mapM (fun c => p.graph.evaluate c p.vars r.iterate.x) =
        .ok (p.constraints.map (p.valueAt r.iterate.x)) ∧
      r.iterate.multipliers = p.constraints.map fun c =>
        accumulated p (start c) ((rounds.map OuterRound.iterate).take (k + 1)) c := by
  induction h generalizing start k with
  | failed => cases hr
  | last hstep =>
    obtain ⟨-, -, hvalues, hgrown⟩ := step_multipliers hl hs hstart hstep
    cases k with
    | zero =>
      obtain rfl := Option.some.inj hr
      exact ⟨hvalues, hgrown⟩
    | succ k => cases hr
  | more hstep _ _ ih =>
    obtain ⟨hnext, hkept, hvalues, hgrown⟩ := step_multipliers hl hs hstart hstep
    cases k with
    | zero =>
      obtain rfl := Option.some.inj hr
      exact ⟨hvalues, hgrown⟩
    -- The sums go on from what the first step has made of the multipliers.
    | succ k => exact ih hnext (hkept.trans hgrown) hr

end Multipliers

variable [ScalingScalar α] {its : Iterates α}

/-- The rounds of the multiplier method, in exact arithmetic as in floating point. The weights start
at the initial one, never fall, keep to their limit, and stay as they are where the constraints met
the violation target in force. The tolerances keep to their floors, and the gradient tolerance never
grows if the initial weight is from one on. Every iterate is found by minimising the Lagrangian with
the multipliers before it and its own weight, from the point before it. Its multipliers are the sums
of the weights so far times the values of the constraints. -/
theorem rounds_lawful (hm : m.WellConfigured) (h : (m.solver.start p).outcome = .ok its) :
    let zeros := List.replicate p.constraints.length 0
    ∃ l rounds, Lagrangian.ofProblem p = .ok l ∧ its.toList = rounds.map OuterRound.iterate ∧
      m.Runs l (m.maxOuterIterations - 1) (m.initial p.start zeros) rounds ∧
      (∀ r ∈ rounds.head?, r.iterate.penalty = m.initialPenalty ∧ m.Minimizes l p.start zeros r) ∧
      (∀ r ∈ rounds, r.iterate.penalty = r.state.penalty ∧ m.Within r.state) ∧
      rounds.IsChain (m.Continues l) ∧
      ∀ (k : Nat) (r : OuterRound α), rounds[k]? = some r →
        p.constraints.mapM (fun c => p.graph.evaluate c p.vars r.iterate.x) =
            .ok (p.constraints.map (p.valueAt r.iterate.x)) ∧
          r.iterate.multipliers =
            p.constraints.map (accumulated p 0 (its.toList.take (k + 1))) := by
  intro zeros
  obtain ⟨l, hl, rfl, hstands⟩ := outcome_eq_ok h
  obtain ⟨-, -, d, hd⟩ := Lagrangian.ofProblem_spec hl
  rw [hd.length_constraints] at hstands ⊢
  obtain ⟨rounds, hlist, hruns⟩ := m.runs_iterates l (m.maxOuterIterations - 1)
    (m.initial p.start zeros)
  have hrounds := hruns.forall_round
    (P := fun s => m.Within s ∧ (1 ≤ m.initialPenalty → m.Settles s))
    (fun _ _ _ _ hstep hs => ⟨step_within hm hstep hs.1, fun hone =>
      (step_settles hm hstep hs.1 (hs.2 hone)).2⟩)
    ⟨initial_within hm p.start zeros, fun hone => initial_settles hone p.start zeros⟩
  refine ⟨l, rounds, hl, hlist, hruns, fun r hr => ?_, fun r hr => ?_, ?_, fun k r hr => ?_⟩
  · obtain ⟨-, left, next, hstep⟩ := hrounds r (List.mem_of_mem_head? hr)
    have hpenalty := step_penalty hstep
    have hminimizes := step_minimizes hstep
    rw [hruns.head_state r hr] at hpenalty hminimizes
    exact ⟨hpenalty, hminimizes⟩
  · obtain ⟨⟨hwithin, -⟩, left, next, hstep⟩ := hrounds r hr
    exact ⟨step_penalty hstep, hwithin⟩
  · refine hruns.isChain.imp_of_mem_imp fun r r' hr hr' => ?_
    rintro ⟨left, hstep⟩
    obtain ⟨hwithin, hsettles⟩ := (hrounds r hr).1
    obtain ⟨-, left', next, hstep'⟩ := hrounds r' hr'
    exact continues_of_steps hm hwithin hsettles hstep hstep'
  · rw [hlist]
    exact hruns.multipliers hl hstands List.map_const'.symm hr

end MultiplierMethod

/-- The weight grows after the first round, and each round adds to the multiplier. -/
theorem rounds_lawful_square : squareMethod.WellConfigured ∧
    ∃ (its : Iterates ℚ) (l : Lagrangian ℚ) (rounds : List (OuterRound ℚ)),
      (squareMethod.solver.start squareProblem).outcome = .ok its ∧
      its.toList = rounds.map OuterRound.iterate ∧
      its.toList.map (fun it => (it.penalty, it.multipliers)) =
        [(10, [-5 / 3]), (100, [-305 / 153])] ∧
      rounds.IsChain (squareMethod.Continues l) ∧ (∀ r ∈ rounds, squareMethod.Within r.state) ∧
      ∀ (k : Nat) (r : OuterRound ℚ), rounds[k]? = some r →
        r.iterate.multipliers = [accumulated squareProblem 0 (its.toList.take (k + 1)) ⟨3⟩] := by
  have hm : squareMethod.WellConfigured := ⟨by decide, by decide, by decide⟩
  have hrun : (squareMethod.solver.start squareProblem).outcome.toOption.map
      (fun its => its.toList.map fun it => (it.penalty, it.multipliers)) =
      some [(10, [-5 / 3]), (100, [-305 / 153])] := by decide +kernel
  obtain ⟨its, hits, htrace⟩ := Option.map_eq_some_iff.mp hrun
  have hok := toOption_eq_some.mp hits
  obtain ⟨l, rounds, -, hlist, -, -, hwithin, hchain, hsums⟩ :=
    MultiplierMethod.rounds_lawful hm hok
  exact ⟨hm, its, l, rounds, hok, hlist, htrace, hchain, fun r hr => (hwithin r hr).2,
    fun k r hr => (hsums k r hr).2⟩

end Autodiff
