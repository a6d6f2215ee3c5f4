import Autodiff.Minimizer
import Autodiff.Proofs.Sequences
import Autodiff.Proofs.Subproblems

namespace Autodiff

variable {α : Type} [Scalar α]

/-- A solver that starts only with solvable problems, and gives a well-formed sequence whenever it
starts. By some faults only it may break. -/
structure Solver.Regular (breaks : Fault → Prop) (s : Solver α) : Prop where
  wellFormed : ∀ p its, (s.start p).outcome = .ok its → its.WellFormed breaks 0
  solvable : ∀ p its, (s.start p).outcome = .ok its → p.Solvable
  breaks : ∀ p, p.Solvable → ∀ cause, (s.start p).outcome = .error (.ofFault cause) → breaks cause

/-- The fault by which minimisations of some kind may break: one of them has no room for its curvature
pairs. -/
def Overflow (kind : Lbfgs α → Prop) (cause : Fault) : Prop :=
  cause = .capacityOverflow ∧ ∃ m, kind m ∧ ¬m.Reservable

variable {kind : Lbfgs α → Prop}

namespace PenaltyMethod

theorem status_ne_inProgress (termination : Termination) : status termination ≠ .inProgress := by
  unfold status
  split
  next => simp
  next =>
    split
    next => simp
    next => simp

variable [SoundTests α] {p : Problem α} {l : Lagrangian α}

/-- From a point of the domain the only subproblem gives the final iterate, if there is room for the
curvature pairs. -/
theorem run_of_admits (m : PenaltyMethod α) (h : Lagrangian.ofProblem p = .ok l)
    (ha : l.Admits p.start) :
    let config := m.lbfgs.withGradientTolerance m.gradientTolerance
    let objective := l.reply (List.replicate l.constraints.length 0) (Scalar.two * m.penalty)
    (config.Overflows (objective p.start) ∧
      (config.minimize p.start).runWith objective = .error .capacityOverflow ∧
      m.run l p.start = .error (.ofFault .capacityOverflow)) ∨
    ∃ result it, (config.minimize p.start).runWith objective = .ok result ∧
      l.Admits result.x ∧ result.x.length = p.vars.length ∧ m.run l p.start = .ok it ∧
      it.iteration = 0 ∧ it.status ≠ .inProgress := by
  obtain ⟨hstart, -, d, hd⟩ := Lagrangian.ofProblem_spec h
  have hm : (List.replicate l.constraints.length (0 : α)).length = l.constraints.length :=
    List.length_replicate
  have hchecked := hd.evaluate_of_admits hstart hm (Scalar.two * m.penalty) ha
  rcases (hd.minimize_admits hstart ha hm (Scalar.two * m.penalty)
    (m.lbfgs.withGradientTolerance m.gradientTolerance)).error_or_ok with
    ⟨hresult, hover⟩ | ⟨result, hresult, hx, ha'⟩
  · refine .inl ⟨hover, hresult, ?_⟩
    simp only [run, hchecked, hresult, Except.mapError, ok_bind, error_bind]
  · refine .inr ⟨result, ?_⟩
    have hrun : ∃ it, m.run l p.start = .ok it ∧ it.iteration = 0 ∧ it.status ≠ .inProgress := by
      simp only [run, hchecked, hresult, Except.mapError, ok_bind, hd.measure_eq hx ha']
      exact ⟨_, rfl, rfl, status_ne_inProgress result.termination⟩
    obtain ⟨it, hit, hzero, hfinal⟩ := hrun
    exact ⟨it, hresult, ha', hx, hit, hzero, hfinal⟩

omit [SoundTests α] in
theorem run_of_refused (m : PenaltyMethod α) {start : List α} {e : Failure α}
    (h : l.evaluate start (List.replicate l.constraints.length 0) (Scalar.two * m.penalty) =
      .error e) : m.run l start = .error (.term e) := by
  unfold run
  dsimp only
  rw [h]
  rfl

theorem run_spec (m : PenaltyMethod α) (h : Lagrangian.ofProblem p = .ok l) :
    (∃ e, m.run l p.start = .error (.term (.refused e))) ∨
      (m.run l p.start = .error (.ofFault .capacityOverflow) ∧ ¬m.lbfgs.Reservable) ∨
      ∃ it, m.run l p.start = .ok it ∧ it.iteration = 0 ∧ it.status ≠ .inProgress := by
  obtain ⟨hstart, -, d, hd⟩ := Lagrangian.ofProblem_spec h
  rcases hd.evaluate_cases hstart List.length_replicate (Scalar.two * m.penalty) with
    ⟨r, -, ha⟩ | ⟨e, hr⟩
  · rcases m.run_of_admits h ha with ⟨hover, -, hrun⟩ | ⟨-, it, -, -, -, hit⟩
    · exact .inr (.inl ⟨hrun, hover.memory⟩)
    · exact .inr (.inr ⟨it, hit⟩)
  · exact .inl ⟨e, m.run_of_refused hr⟩

theorem regular (m : PenaltyMethod α) (hm : kind m.lbfgs) : m.solver.Regular (Overflow kind) := by
  refine ⟨fun p its h => ?_, fun p its h => ?_, fun p hp cause h => ?_⟩
  · obtain ⟨l, hl, h⟩ := bind_eq_ok.mp h
    obtain ⟨it, hit, h⟩ := bind_eq_ok.mp h
    obtain rfl := Except.ok.inj h
    rcases m.run_spec hl with ⟨e, hrun⟩ | ⟨hrun, -⟩ | ⟨it', hrun, hzero, hfinal⟩
    · cases hit.symm.trans hrun
    · cases hit.symm.trans hrun
    · obtain rfl : it = it' := Except.ok.inj (hit.symm.trans hrun)
      exact .last hzero hfinal .done
  · obtain ⟨l, hl, -⟩ := bind_eq_ok.mp h
    exact ⟨l, hl⟩
  · obtain ⟨l, hl⟩ := hp
    simp only [solver, hl, ok_bind] at h
    rcases m.run_spec hl with ⟨e, hrun⟩ | ⟨hrun, hroom⟩ | ⟨it, hrun, -⟩
    · rw [hrun] at h
      cases h
    · rw [hrun] at h
      cases h
      exact ⟨rfl, m.lbfgs, hm, hroom⟩
    · rw [hrun] at h
      cases h

end PenaltyMethod

namespace MultiplierMethod

variable {p : Problem α} {l : Lagrangian α}

/-- A state of the outer loop that stands at a point of the domain, with a multiplier for each
constraint. -/
structure Stands (l : Lagrangian α) (s : OuterState α) : Prop where
  length_x : s.x.length = l.dimension
  length_multipliers : s.multipliers.length = l.constraints.length
  admits : l.Admits s.x

/-- From a point of the domain there is always a next iterate, which ends in the domain again, if
there is room for the curvature pairs. -/
theorem step_spec [SoundTests α] (m : MultiplierMethod α) (h : Lagrangian.ofProblem p = .ok l)
    (left : Nat) {s : OuterState α} (hs : Stands l s) :
    (m.step l left s = .error (.fault .capacityOverflow) ∧ ¬m.lbfgs.Reservable) ∨
    ∃ it next, m.step l left s = .ok (it, next) ∧ it.iteration = s.iteration ∧
      (left = 0 → it.status ≠ .inProgress) ∧ next.iteration = s.iteration + 1 ∧
      Stands l next := by
  obtain ⟨-, -, d, hd⟩ := Lagrangian.ofProblem_spec h
  rcases (hd.minimize_admits (hs.length_x.trans hd.dimension_eq) hs.admits hs.length_multipliers
    s.penalty (m.lbfgs.withGradientTolerance s.innerTolerance)).error_or_ok with
    ⟨hr, hover⟩ | ⟨r, hr, hx, ha⟩
  · refine .inl ⟨?_, hover.memory⟩
    simp only [step, subproblem, hr, Except.mapError, error_bind]
  · refine .inr ?_
    simp only [step, subproblem, hr, Except.mapError, ok_bind, hd.measure_eq hx ha]
    refine ⟨_, _, rfl, rfl, fun hleft => ?_, rfl, hx.trans hd.dimension_eq.symm, ?_, ha⟩
    · rw [if_pos hleft]
      split
      next => simp
      next => simp
    · simp only [updatePenalty, updateMultipliers, List.length_zipWith, List.length_map,
        hs.length_multipliers, hd.length_constraints, Nat.min_self]

/-- The states before the subproblems of one run, each with the number of rounds left after it. -/
inductive Visits (m : MultiplierMethod α) (l : Lagrangian α) (start : OuterState α) :
    Nat → OuterState α → Prop
  | start : Visits m l start (m.maxOuterIterations - 1) start
  | next {left : Nat} {s next : OuterState α} {it : Iterate α} (h : Visits m l start (left + 1) s)
      (hstep : m.step l (left + 1) s = .ok (it, next)) (hs : it.status = .inProgress) :
      Visits m l start left next

theorem stands_of_visits [SoundTests α] {m : MultiplierMethod α} (h : Lagrangian.ofProblem p = .ok l)
    {start s : OuterState α} (hstart : Stands l start) {left : Nat}
    (hv : Visits m l start left s) : Stands l s := by
  induction hv with
  | start => exact hstart
  | next _ hstep _ ih =>
    rcases m.step_spec h _ ih with ⟨hstep', -⟩ | ⟨it, next, hstep', -, -, -, hnext⟩
    · cases hstep.symm.trans hstep'
    · cases hstep.symm.trans hstep'
      exact hnext

theorem wellFormed_iterates [SoundTests α] (m : MultiplierMethod α) (hm : kind m.lbfgs)
    (h : Lagrangian.ofProblem p = .ok l) (left : Nat) {s : OuterState α} (hs : Stands l s) :
    (m.iterates l left s).WellFormed (Overflow kind) s.iteration := by
  induction left generalizing s with
  | zero =>
    rcases m.step_spec h 0 hs with ⟨hstep, hroom⟩ | ⟨it, next, hstep, hit, hfinal, -⟩
    · simp only [iterates, hstep]
      exact .broken ⟨rfl, m.lbfgs, hm, hroom⟩
    · simp only [iterates, hstep]
      exact .last hit (hfinal rfl) .done
  | succ left ih =>
    rcases m.step_spec h (left + 1) hs with ⟨hstep, hroom⟩ | ⟨it, next, hstep, hit, -, hnext, hs'⟩
    · simp only [iterates, hstep]
      exact .broken ⟨rfl, m.lbfgs, hm, hroom⟩
    · simp only [iterates, hstep]
      by_cases hstatus : it.status = .inProgress
      · refine .more hit hstatus ?_
        rw [if_pos hstatus, ← hnext]
        exact ih hs'
      · refine .last hit hstatus ?_
        rw [if_neg hstatus]
        exact .done

omit [Scalar α] in
theorem toList_ending (cause : Failure α) : (ending cause).toList = [] := by
  cases cause with
  | refused e => rfl
  | fault cause => rfl

theorem length_iterates (m : MultiplierMethod α) (l : Lagrangian α) (left : Nat)
    (s : OuterState α) : (m.iterates l left s).toList.length ≤ left + 1 := by
  induction left generalizing s with
  | zero =>
    unfold iterates
    split
    next cause _ => rw [toList_ending]; exact Nat.zero_le _
    next => exact Nat.le_refl 1
  | succ left ih =>
    unfold iterates
    split
    next cause _ => rw [toList_ending]; exact Nat.zero_le _
    next it next _ =>
      simp only [Iterates.toList, List.length_cons, Nat.add_le_add_iff_right]
      split
      next => exact ih next
      next => exact Nat.zero_le _

theorem outcome_eq_ok {m : MultiplierMethod α} {its : Iterates α}
    (h : (m.solver.start p).outcome = .ok its) :
    ∃ l, Lagrangian.ofProblem p = .ok l ∧
      its = m.iterates l (m.maxOuterIterations - 1)
        (m.initial p.start (List.replicate l.constraints.length 0)) ∧
      Stands l (m.initial p.start (List.replicate l.constraints.length 0)) := by
  obtain ⟨l, hl, h⟩ := bind_eq_ok.mp h
  obtain ⟨r, hr, h⟩ := bind_eq_ok.mp h
  obtain ⟨hstart, -, d, hd⟩ := Lagrangian.ofProblem_spec hl
  have hm : (List.replicate l.constraints.length (0 : α)).length = l.constraints.length :=
    List.length_replicate
  exact ⟨l, hl, (Except.ok.inj h).symm, hstart.trans hd.dimension_eq.symm, hm,
    hd.admits_of_evaluate hstart hm (mapError_eq_ok.mp hr)⟩

theorem regular [SoundTests α] (m : MultiplierMethod α) (hm : kind m.lbfgs) :
    m.solver.Regular (Overflow kind) := by
  refine ⟨fun p its h => ?_, fun p its h => ?_, fun p hp cause h => ?_⟩
  · obtain ⟨l, hl, rfl, hs⟩ := outcome_eq_ok h
    exact m.wellFormed_iterates hm hl _ hs
  · obtain ⟨l, hl, -⟩ := outcome_eq_ok h
    exact ⟨l, hl⟩
  · obtain ⟨l, hl⟩ := hp
    obtain ⟨hstart, -, d, hd⟩ := Lagrangian.ofProblem_spec hl
    have hm : (List.replicate l.constraints.length (0 : α)).length = l.constraints.length :=
      List.length_replicate
    simp only [solver, hl, ok_bind] at h
    rcases hd.evaluate_cases hstart hm m.initialPenalty with ⟨r, hr, -⟩ | ⟨e, hr⟩
    · rw [hr] at h
      cases h
    · rw [hr] at h
      cases h

end MultiplierMethod

variable {breaks : Fault → Prop}

theorem Minimizer.regular {m : Minimizer α} (h : m.inner.Regular breaks) :
    m.solver.Regular breaks := by
  have houtcome : ∀ p, (m.solver.start p).outcome = (m.inner.start p).outcome := by
    intro p
    simp only [solver]
    split <;> rfl
  refine ⟨fun p its hp => ?_, fun p its hp => ?_, fun p hp cause hc => ?_⟩
  · exact h.wellFormed p its (houtcome p ▸ hp)
  · exact h.solvable p its (houtcome p ▸ hp)
  · exact h.breaks p hp cause (houtcome p ▸ hc)

theorem Multistage.launch_sound {p : Problem α} (hp : p.Solvable) {stage : Solver α}
    (h : stage.Regular breaks) (x : List α) : (launch p stage x).Sound breaks := by
  unfold Launch.Sound launch
  cases hp' : p.restarted x with
  | error e => trivial
  | ok p' =>
    dsimp only
    cases houtcome : (stage.start p').outcome with
    | ok its => exact ⟨0, h.wellFormed _ _ houtcome⟩
    | error cause =>
      match cause, houtcome with
      | .term (.fault cause), houtcome => exact h.breaks p' (hp.restarted hp') cause houtcome
      | .term (.refused _), _ => trivial
      | .noIterates, _ => trivial
      | .dimensionMismatch _ _, _ => trivial

omit [Scalar α] in
theorem Multistage.outcome_eq_ok {m : Multistage α} {p : Problem α} {its : Iterates α}
    (h : (m.solver.start p).outcome = .ok its) :
    ∃ its', (m.first.start p).outcome = .ok its' ∧ its = sequence p m.rest its' none 0 := by
  simp only [solver] at h
  cases ho : (m.first.start p).outcome with
  | error e =>
    rw [ho] at h
    cases h
  | ok its' =>
    rw [ho] at h
    exact ⟨its', rfl, (Except.ok.inj h).symm⟩

theorem Multistage.regular {m : Multistage α} (hfirst : m.first.Regular breaks)
    (hrest : ∀ stage ∈ m.rest, stage.Regular breaks) : m.solver.Regular breaks := by
  refine ⟨fun p its h => ?_, fun p its h => ?_, fun p hp cause h => ?_⟩
  · obtain ⟨its', ho, rfl⟩ := outcome_eq_ok h
    have hp := hfirst.solvable p its' ho
    exact wellFormed_sequence _ (fun stage hs x => launch_sound hp (hrest stage hs) x)
      (hfirst.wellFormed p its' ho) none 0
  · obtain ⟨its', ho, -⟩ := outcome_eq_ok h
    exact hfirst.solvable p its' ho
  · refine hfirst.breaks p hp cause ?_
    simp only [solver] at h
    cases ho : (m.first.start p).outcome with
    | error e =>
      rw [ho] at h
      exact congrArg _ (Except.error.inj h)
    | ok its' =>
      rw [ho] at h
      cases h

/-- The solvers that are made of the two methods by tracing and chaining, to any depth, with
minimisations of some kind. -/
inductive Solver.Built (kind : Lbfgs α → Prop) : Solver α → Prop
  | penalty (m : PenaltyMethod α) (h : kind m.lbfgs) : Built kind m.solver
  | multiplier (m : MultiplierMethod α) (h : kind m.lbfgs) : Built kind m.solver
  | minimizer (m : Minimizer α) (h : Built kind m.inner) : Built kind m.solver
  | multistage (m : Multistage α) (hfirst : Built kind m.first)
      (hrest : ∀ s ∈ m.rest, Built kind s) : Built kind m.solver

theorem Solver.Built.regular [SoundTests α] {s : Solver α} (h : s.Built kind) :
    s.Regular (Overflow kind) := by
  induction h with
  | penalty m h => exact m.regular h
  | multiplier m h => exact m.regular h
  | minimizer m _ ih => exact Minimizer.regular ih
  | multistage m _ _ ihfirst ihrest => exact Multistage.regular ihfirst ihrest

/-- A solver that starts gives a sequence with at least one iterate, numbered without gaps, of which
exactly the last is final; asked again after it, the sequence has no more. Only if there is no room
for the curvature pairs of one of the minimisations, the sequence may break off, after iterates that
are numbered in the same way and not final. The multiplier method keeps to its cap, and each of its
steps gives an iterate or breaks so. -/
theorem solver_sequence_lawful [SoundTests α] {s : Solver α} (hs : s.Built kind) {p : Problem α}
    {its : Iterates α} (h : (s.start p).outcome = .ok its) :
    ((∃ iterates last, its.collect.1 = .ok iterates ∧ iterates.getLast? = some last ∧
        (∀ (i : Nat) (it : Iterate α), iterates[i]? = some it →
          it.iteration = i ∧ (it.status = .inProgress ↔ i + 1 < iterates.length)) ∧
        (∀ n, its.reply n = .ok iterates[n]?) ∧
        (∀ limit, (s.solve p limit).1 = .ok (iterates.take limit)) ∧
        (s.minimize p).1 = .ok last) ∨
      ((∃ m, kind m ∧ ¬m.Reservable) ∧ its.BreaksOff 0 .capacityOverflow ∧
        (s.minimize p).1 = .error (.ofFault .capacityOverflow))) ∧
    ∀ m : MultiplierMethod α, s = m.solver → its.toList.length ≤ max 1 m.maxOuterIterations ∧
      ∀ l, Lagrangian.ofProblem p = .ok l → ∀ left state,
        m.Visits l (m.initial p.start (List.replicate l.constraints.length 0)) left state →
          (∃ r, m.step l left state = .ok r) ∨
            (¬m.lbfgs.Reservable ∧ m.step l left state = .error (.fault .capacityOverflow)) := by
  constructor
  · rcases (hs.regular.wellFormed p its h).collect_spec with
      ⟨iterates, hcollect, hlawful, hreply⟩ | ⟨cause, ⟨rfl, hroom⟩, hbreaks⟩
    · obtain ⟨last, hlast⟩ : ∃ last, iterates.getLast? = some last :=
        ⟨_, List.getLast?_eq_some_getLast hlawful.nonempty⟩
      refine .inl ⟨iterates, last, hcollect, hlast, fun i it hi => ?_, hreply, fun limit => ?_, ?_⟩
      · have := hlawful.iteration i it hi
        exact ⟨by omega, hlawful.status i it hi⟩
      · simp only [Solver.solve, h, Iterates.collect_take hcollect limit]
        rfl
      · simp only [Solver.minimize, h, hcollect, hlast]
    · refine .inr ⟨hroom, hbreaks, ?_⟩
      simp only [Solver.minimize, h, hbreaks.collect]
  · rintro m rfl
    obtain ⟨l', hl', rfl, hstart⟩ := MultiplierMethod.outcome_eq_ok h
    constructor
    · have := m.length_iterates l' (m.maxOuterIterations - 1)
        (m.initial p.start (List.replicate l'.constraints.length 0))
      omega
    · intro l hl left state hv
      obtain rfl := Except.ok.inj (hl.symm.trans hl')
      rcases m.step_spec hl left (MultiplierMethod.stands_of_visits hl hstart hv) with
        ⟨hstep, hroom⟩ | ⟨it, next, hstep, -⟩
      · exact .inr ⟨hroom, hstep⟩
      · exact .inl ⟨_, hstep⟩

/-- Minimise a variable times itself, starting from one, without constraints. -/
def parabola : Problem Float :=
  ⟨⟨#[.variable ⟨0⟩, .binary .multiply ⟨0⟩ ⟨0⟩], 1⟩, ⟨1⟩, [], [⟨⟨0⟩, ⟨0⟩⟩], [1]⟩

/-- The penalty method and then the multiplier method, with a record of the problem. -/
def tracedStages : Minimizer Float where
  inner := (Multistage.mk PenaltyMethod.standard.solver [MultiplierMethod.standard.solver]).solver
  traced := true

theorem solver_sequence_lawful_tracedStages :
    tracedStages.solver.Built Lbfgs.Reservable ∧ ∃ its iterates last,
      (tracedStages.solver.start parabola).outcome = .ok its ∧
      its.collect.1 = .ok iterates ∧ iterates.getLast? = some last ∧
      (tracedStages.solver.minimize parabola).1 = .ok last ∧
      iterates.map (fun it => (it.x, it.status)) = [([0], .inProgress), ([0], .converged)] := by
  have hbuilt : tracedStages.solver.Built Lbfgs.Reservable :=
    .minimizer _ (.multistage _ (.penalty _ (by decide)) fun s hs => by
      obtain rfl : s = MultiplierMethod.standard.solver := by simpa using hs
      exact .multiplier _ (by decide))
  have hrun : ((tracedStages.solver.start parabola).outcome.toOption.bind fun its =>
      its.collect.1.toOption.map fun iterates => iterates.map fun it => (it.x, it.status)) =
        some [([0], .inProgress), ([0], .converged)] := by decide +kernel
  obtain ⟨its, hits, hiterates⟩ := Option.bind_eq_some_iff.mp hrun
  have hok := toOption_eq_some.mp hits
  rcases (solver_sequence_lawful hbuilt hok).1 with
    ⟨iterates, last, hcollect, hlast, -, -, -, hminimize⟩ | ⟨⟨m, hroom, hover⟩, -⟩
  · rw [hcollect] at hiterates
    exact ⟨hbuilt, its, iterates, last, hok, hcollect, hlast, hminimize, Option.some.inj hiterates⟩
  · exact absurd hroom hover

/-- The multiplier method with more curvature pairs than there can be room for. -/
def unboundedSolver : Solver Float :=
  { MultiplierMethod.standard with lbfgs := .boundless : MultiplierMethod Float }.solver

/-- The solver starts, and its sequence breaks where the first iterate is asked for. -/
theorem solver_sequence_breaks : unboundedSolver.Built (fun _ => True) ∧
    ∃ its, (unboundedSolver.start parabola).outcome = .ok its ∧
      its.reply 0 = .error .capacityOverflow ∧
      (unboundedSolver.minimize parabola).1 = .error (.ofFault .capacityOverflow) := by
  have hreply : ((unboundedSolver.start parabola).outcome.map fun its => its.reply 0) =
      .ok (.error .capacityOverflow) := by decide +kernel
  have hminimize : (unboundedSolver.minimize parabola).1 =
      .error (.ofFault .capacityOverflow) := by decide +kernel
  cases houtcome : (unboundedSolver.start parabola).outcome with
  | error e =>
    rw [houtcome] at hreply
    cases hreply
  | ok its =>
    rw [houtcome] at hreply
    exact ⟨.multiplier _ trivial, its, rfl, Except.ok.inj hreply, hminimize⟩

end Autodiff
