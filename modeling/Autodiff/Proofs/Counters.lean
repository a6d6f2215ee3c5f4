import Autodiff.Rehearsal
import Autodiff.Proofs.Descent

namespace Autodiff

variable {α : Type} {admits : List α → Reply α → Prop} {calls : List (Call α)}

/-- A line search that had counted some evaluations when the first calls were made has counted one
for each later call, if it settles on a step. -/
structure Tallies (evaluations : Nat) (calls : List (Call α)) (found : Option (AcceptedStep α))
    (calls' : List (Call α)) : Prop where
  grows : calls.length ≤ calls'.length
  counted : ∀ a, found = some a → calls'.length + evaluations = calls.length + a.evaluations

/-- One more call has been made and counted. -/
theorem tallies_probe {evaluations : Nat} {c : Call α} {found : Option (AcceptedStep α)}
    {calls' : List (Call α)} (h : Tallies (evaluations + 1) (c :: calls) found calls') :
    calls.length < calls'.length ∧ Tallies evaluations calls found calls' := by
  obtain ⟨hle, hfound⟩ := h
  rw [List.length_cons] at hle
  refine ⟨hle, by omega, fun a ha => ?_⟩
  have := hfound a ha
  rw [List.length_cons] at this
  omega

theorem tallies_accept (t : Trial α) (evaluations : Nat) (calls : List (Call α)) :
    Tallies evaluations calls (some (t.accept evaluations)) calls := by
  refine ⟨Nat.le_refl _, fun a ha => ?_⟩
  obtain rfl := Option.some.inj ha
  rfl

/-- A dialogue that comes after a counted call. -/
theorem ensures_tallies_of_counted {evaluations : Nat} {c : Call α}
    {d : Dialogue α (Option (AcceptedStep α))}
    (h : d.Ensures admits (Tallies (evaluations + 1) (c :: calls)) (c :: calls)) :
    d.Ensures admits (fun found calls' => calls.length < calls'.length ∧
      Tallies evaluations calls found calls') (c :: calls) :=
  h.mono fun _ _ ht _ _ => tallies_probe ht

variable [Scalar α]

namespace Line

variable {l : Line α}

theorem tallies_settle (lo : Trial α) (evaluations : Nat) (calls : List (Call α)) :
    Tallies evaluations calls (settle lo evaluations) calls := by
  refine ⟨Nat.le_refl _, fun a ha => ?_⟩
  unfold settle at ha
  split at ha
  next =>
    obtain rfl := Option.some.inj ha
    rfl
  next => cases ha

theorem zoom_tallies (rounds : Nat) (lo hi : Trial α) (evaluations : Nat) :
    (l.zoom rounds lo hi evaluations).Ensures admits (Tallies evaluations calls) calls := by
  induction rounds generalizing lo hi evaluations calls with
  | zero => exact tallies_settle lo evaluations calls
  | succ rounds ih =>
    unfold zoom
    dsimp only
    split
    next => exact tallies_settle lo evaluations calls
    next =>
      rw [Dialogue.ensures_bind]
      refine probe_ensures _ fun reply _ => ?_
      refine (ensures_tallies_of_counted ?_).mono fun found calls' ht _ _ => ht.2
      split
      next => exact ih _ _ _
      next =>
        split
        next => exact tallies_accept _ _ _
        next =>
          split
          next => exact ih _ _ _
          next => exact ih _ _ _

theorem bracket_tallies (rounds : Nat) (first : Bool) (previous : Trial α) (step : α)
    (evaluations : Nat) :
    (l.bracket rounds first previous step evaluations).Ensures admits
      (fun found calls' => Tallies evaluations calls found calls' ∧
        (calls'.length = calls.length ↔ rounds = 0)) calls := by
  induction rounds generalizing first previous step evaluations calls with
  | zero => exact ⟨⟨Nat.le_refl _, nofun⟩, iff_of_true rfl rfl⟩
  | succ rounds ih =>
    unfold bracket
    rw [Dialogue.ensures_bind]
    refine probe_ensures _ fun reply _ => ?_
    refine (ensures_tallies_of_counted ?_).mono fun found calls' ht _ _ =>
      ⟨ht.2, iff_of_false (Nat.ne_of_gt ht.1) (Nat.succ_ne_zero rounds)⟩
    split
    next => exact zoom_tallies _ _ _ _
    next =>
      split
      next => exact tallies_accept _ _ _
      next =>
        split
        next => exact zoom_tallies _ _ _ _
        next =>
          split
          next => exact ⟨Nat.le_refl _, nofun⟩
          next => exact (ih _ _ _ _).mono fun _ _ ht _ _ => ht.1

theorem zoom_length_le (rounds : Nat) (lo hi : Trial α) (evaluations : Nat) :
    (l.zoom rounds lo hi evaluations).Ensures admits
      (fun _ calls' => calls'.length ≤ calls.length + rounds) calls := by
  induction rounds generalizing lo hi evaluations calls with
  | zero => exact Nat.le_refl _
  | succ rounds ih =>
    have hrest (c : Call α) (lo hi : Trial α) (evaluations : Nat) :
        (l.zoom rounds lo hi evaluations).Ensures admits
          (fun _ calls' => calls'.length ≤ calls.length + (rounds + 1)) (c :: calls) :=
      (ih lo hi evaluations).mono fun _ calls' h _ _ => by
        rw [List.length_cons] at h
        omega
    unfold zoom
    dsimp only
    split
    next => exact Nat.le_add_right _ _
    next =>
      rw [Dialogue.ensures_bind]
      refine probe_ensures _ fun reply _ => ?_
      split
      next => exact hrest _ _ _ _
      next =>
        split
        next => exact Nat.add_le_add_left (Nat.le_add_left 1 rounds) _
        next =>
          split
          next => exact hrest _ _ _ _
          next => exact hrest _ _ _ _

theorem bracket_length_le (rounds : Nat) (first : Bool) (previous : Trial α) (step : α)
    (evaluations : Nat) :
    (l.bracket rounds first previous step evaluations).Ensures admits
      (fun _ calls' => calls'.length ≤ calls.length + (rounds + l.params.maxZoom)) calls := by
  induction rounds generalizing first previous step evaluations calls with
  | zero => exact Nat.le_add_right _ _
  | succ rounds ih =>
    have hzoom (c : Call α) (lo hi : Trial α) :
        (l.zoom l.params.maxZoom lo hi (evaluations + 1)).Ensures admits
          (fun _ calls' => calls'.length ≤ calls.length + (rounds + 1 + l.params.maxZoom))
          (c :: calls) :=
      (zoom_length_le _ lo hi _).mono fun _ calls' h _ _ => by
        rw [List.length_cons] at h
        omega
    have hone (c : Call α) :
        (c :: calls).length ≤ calls.length + (rounds + 1 + l.params.maxZoom) := by
      rw [List.length_cons]
      omega
    unfold bracket
    rw [Dialogue.ensures_bind]
    refine probe_ensures _ fun reply _ => ?_
    split
    next => exact hzoom _ _ _
    next =>
      split
      next => exact hone _
      next =>
        split
        next => exact hzoom _ _ _
        next =>
          split
          next => exact hone _
          next =>
            refine (ih _ _ _ _).mono fun _ calls' h _ _ => ?_
            rw [List.length_cons] at h
            omega

end Line

/-- A line search evaluates each step that it tries once, at most. -/
theorem strongWolfeStep_length_le (x d : List α) (start : Reply α) (step : α)
    (params : WolfeSettings α) :
    (strongWolfeStep x d start step params).Ensures admits (fun _ calls' =>
      calls'.length ≤ calls.length + (params.maxBracket + params.maxZoom)) calls := by
  unfold strongWolfeStep
  dsimp only
  split
  next => exact Nat.le_add_right _ _
  next =>
    exact Line.bracket_length_le (l := ⟨x, d, start.value, dot start.gradient d, params⟩) _ _ _ _ _

/-- A search that is given up before its first evaluation. -/
def Descent.GivesUp (m : Lbfgs α) (s : Descent α) : Prop :=
  m.lineSearch.maxBracket = 0 ∨ ¬(s.line m).Downhill

theorem Descent.search_tallies (m : Lbfgs α) (s : Descent α) :
    (s.search m).Ensures admits (fun found calls' => Tallies 0 calls found calls' ∧
      (calls'.length = calls.length ↔ s.GivesUp m)) calls := by
  unfold Descent.search strongWolfeStep
  dsimp only
  split
  next hup =>
    have hgives : s.GivesUp m := Or.inr fun hdown => (s.line m).downhill_iff.mp hdown hup
    exact ⟨⟨Nat.le_refl _, nofun⟩, iff_of_true rfl hgives⟩
  next hup =>
    have hdown := (s.line m).downhill_iff.mpr hup
    have hgives : s.GivesUp m ↔ m.lineSearch.maxBracket = 0 := or_iff_left fun h => h hdown
    rw [hgives]
    exact Line.bracket_tallies _ _ _ _ _

namespace Round

/-- The line search of the round settled on a step. -/
def accepts (r : Round α) : Bool := r.found.isSome

/-- The line search of the round failed, and the minimisation went on without its curvature pairs. -/
def restarts (r : Round α) : Bool := r.found.isNone && !r.state.pairs.isEmpty

end Round

namespace Lbfgs

/-- How the counters of a minimisation stand to its rounds and calls. -/
structure Counts (m : Lbfgs α) (evaluations iterations : Nat) (log : List (Round α))
    (calls : List (Call α)) : Prop where
  evaluations_le : evaluations ≤ calls.length
  evaluations_exact : evaluations = calls.length ↔
    ∀ round ∈ log, round.found = none → round.state.GivesUp m
  iterations : iterations = log.countP Round.accepts + log.countP Round.restarts

variable {m : Lbfgs α} {evaluations iterations : Nat} {log : List (Round α)} {s : Descent α}
  {calls' : List (Call α)}

theorem Counts.accept (h : m.Counts evaluations iterations log calls) {a : AcceptedStep α}
    (hcalls : Tallies 0 calls (some a) calls') :
    m.Counts (evaluations + a.evaluations) (iterations + 1) (⟨s, some a⟩ :: log) calls' := by
  have hlength := hcalls.counted a rfl
  have hle := h.evaluations_le
  refine ⟨by omega, ?_, ?_⟩
  · have hsame : evaluations + a.evaluations = calls'.length ↔ evaluations = calls.length := by omega
    rw [hsame, h.evaluations_exact]
    simp
  · rw [h.iterations, List.countP_cons, List.countP_cons]
    simp only [Round.accepts, Round.restarts, Option.isSome_some, Option.isNone_some,
      Bool.false_and, if_true, Bool.false_eq_true, if_false]
    omega

/-- A failed search loses its evaluations. Its round is counted as an iteration if the minimisation
goes on after it. -/
theorem Counts.fail (h : m.Counts evaluations iterations log calls)
    (hcalls : Tallies 0 calls none calls') (hnone : calls'.length = calls.length ↔ s.GivesUp m) :
    m.Counts evaluations (iterations + if s.pairs.isEmpty then 0 else 1) (⟨s, none⟩ :: log)
      calls' := by
  have hle := h.evaluations_le
  have hmore := hcalls.grows
  refine ⟨by omega, ?_, ?_⟩
  · have hboth : evaluations = calls'.length ↔
        calls'.length = calls.length ∧ evaluations = calls.length := by omega
    rw [hboth, hnone, h.evaluations_exact]
    simp
  · rw [h.iterations, List.countP_cons, List.countP_cons]
    cases hp : s.pairs.isEmpty with
    | true => simp [Round.accepts, Round.restarts, hp]
    | false =>
      simp only [Round.accepts, Round.restarts, hp, Option.isSome_none, Option.isNone_none,
        Bool.not_false, Bool.and_self, Bool.false_eq_true, if_false, if_true]
      omega

theorem evaluations_advance {memory : Nat} {d : List α} {a : AcceptedStep α}
    {moved : Descent α × α} (h : s.advance memory d a = .ok moved) :
    moved.1.evaluations = s.evaluations + a.evaluations := by
  unfold Descent.advance at h
  dsimp only at h
  split at h
  next => cases h
  next =>
    obtain rfl := Except.ok.inj h
    rfl

/-- The counters that a minimisation reports. -/
def Reports (m : Lbfgs α) (outcome : Except Fault (Minimum α) × List (Round α))
    (calls : List (Call α)) : Prop :=
  ∀ r, outcome.1 = .ok r → m.Counts r.evaluations r.iterations outcome.2 calls

theorem reports_finish (h : m.Counts s.evaluations iterations log calls)
    (termination : Termination) : m.Reports (.ok (s.finish iterations termination), log) calls := by
  intro r hr
  obtain rfl := Except.ok.inj hr
  exact h

theorem iterateRecorded_reports (rounds : Nat) (h : m.Counts s.evaluations iterations log calls) :
    (m.iterateRecorded rounds iterations s log).Ensures admits m.Reports calls := by
  induction rounds generalizing iterations s log calls with
  | zero => exact reports_finish h _
  | succ rounds ih =>
    unfold iterateRecorded
    rw [Dialogue.ensures_bind]
    refine (s.search_tallies m).mono fun found calls' hfound _ _ => ?_
    obtain ⟨htallies, hnone⟩ := hfound
    cases found with
    | none =>
      -- The evaluations of this search are lost: the state keeps its own count.
      have hfail := h.fail htallies hnone
      dsimp only
      split
      next hempty =>
        rw [if_pos hempty] at hfail
        exact reports_finish hfail _
      next hpairs =>
        rw [if_neg hpairs] at hfail
        exact ih hfail
    | some a =>
      have haccept := h.accept (s := s) htallies
      dsimp only
      cases hadvance : s.advance m.memory s.direction a with
      | error cause =>
        intro r hr
        cases hr
      | ok moved =>
        rw [← evaluations_advance hadvance] at haccept
        dsimp only
        split
        next => exact reports_finish haccept _
        next => exact ih haccept

theorem minimizeRecorded_reports (m : Lbfgs α) (start : List α) :
    (m.minimizeRecorded start).Ensures admits m.Reports [] := by
  unfold minimizeRecorded
  rw [Dialogue.ensures_bind, Dialogue.ensures_evaluate]
  intro reply _
  have hinitial : m.Counts 1 0 [] [⟨start, reply⟩] := ⟨Nat.le_refl _, by simp, rfl⟩
  dsimp only
  split
  next => exact reports_finish hinitial _
  next =>
    split
    next => exact reports_finish hinitial _
    next =>
      split
      next => exact iterateRecorded_reports _ hinitial
      next => exact fun r hr => nomatch hr

/-- What comes of a minimisation and the checks of lengths. -/
def checked (dimension : Nat) :
    Except Fault (Minimum α) × Option Nat → Except (MinimizationError α) (Minimum α)
  | (.error cause, _) => .error (.ofFault cause)
  | (.ok _, some found) => .error (.dimensionMismatch dimension found)
  | (.ok result, none) => .ok result

theorem minimizeChecked_eq (m : Lbfgs α) {dimension : Nat} {start : List α}
    (h : start.length = dimension) : m.minimizeChecked dimension start =
      ((m.minimize start).checkLengths dimension none).map (checked dimension) := by
  rw [minimizeChecked, if_neg (fun hne => hne h), ← Dialogue.bind_answer]
  refine congrArg (_ >>= ·) (funext fun outcome => ?_)
  rcases outcome with ⟨_ | _, _ | _⟩ <;> rfl

/-- A checked minimisation that succeeds makes the same calls, with the same outcome, as one that is
not checked. -/
theorem run_minimizeChecked {σ : Type} {m : Lbfgs α} {dimension : Nat} {start : List α}
    {objective : σ → List α → Reply α × σ} {state : σ} {r : Minimum α}
    (h : (m.minimizeChecked dimension start).run objective state [] = (.ok r, calls)) :
    (m.minimize start).run objective state [] = (.ok r, calls) := by
  by_cases hlength : start.length = dimension
  · obtain ⟨⟨⟨result, wrong⟩, calls'⟩, hrun⟩ : ∃ outcome,
      ((m.minimize start).checkLengths dimension none).run objective state [] = outcome := ⟨_, rfl⟩
    rw [m.minimizeChecked_eq hlength, Dialogue.run_map, hrun] at h
    obtain ⟨houtcome, rfl⟩ := Prod.mk.inj h
    cases result with
    | error cause => cases houtcome
    | ok result =>
      cases wrong with
      | some found => cases houtcome
      | none =>
        obtain rfl := Except.ok.inj houtcome
        exact (Dialogue.run_checkLengths hrun).2
  · rw [minimizeChecked, if_pos hlength] at h
    cases h

/-- A run, recorded or not, and how the counters that it reports stand to its rounds and calls. -/
theorem exists_run_reports {σ : Type} (m : Lbfgs α) (start : List α)
    (objective : σ → List α → Reply α × σ) (state : σ) :
    ∃ result log calls, (m.minimizeRecorded start).run objective state [] = ((result, log), calls) ∧
      (m.minimize start).run objective state [] = (result, calls) ∧
      m.Reports (result, log) calls := by
  obtain ⟨result, log, calls, hrecorded, hrun⟩ :=
    m.exists_run_minimizeRecorded start objective state
  have hensures : (m.minimizeRecorded start).Ensures (fun _ _ => True) m.Reports [] :=
    minimizeRecorded_reports m start
  have hreports : m.Reports ((m.minimizeRecorded start).run objective state []).1
      ((m.minimizeRecorded start).run objective state []).2 :=
    hensures.run (fun _ _ => trivial) state
  rw [hrecorded] at hreports
  exact ⟨result, log, calls, hrecorded, hrun, hreports⟩

/-- The number of evaluations that a minimisation reports is never too large. It leaves out those of
failed line searches, so that it is exact just when each of these was given up before it had made
any. A checked minimisation reports the same. -/
theorem evaluations_reported {σ : Type} (m : Lbfgs α) (start : List α)
    (objective : σ → List α → Reply α × σ) (state : σ) :
    ∃ result log calls, (m.minimizeRecorded start).run objective state [] = ((result, log), calls) ∧
      (m.minimize start).run objective state [] = (result, calls) ∧
      (∀ r, result = .ok r → r.evaluations ≤ calls.length ∧
        (r.evaluations = calls.length ↔
          ∀ round ∈ log, round.found = none → round.state.GivesUp m)) ∧
      ∀ dimension r calls', (m.minimizeChecked dimension start).run objective state [] =
        (.ok r, calls') → result = .ok r ∧ calls' = calls := by
  obtain ⟨result, log, calls, hrecorded, hrun, hreports⟩ :=
    m.exists_run_reports start objective state
  refine ⟨result, log, calls, hrecorded, hrun, fun r hr => ?_, fun dimension r calls' hchecked => ?_⟩
  · have hcounts := hreports r hr
    exact ⟨hcounts.evaluations_le, hcounts.evaluations_exact⟩
  · obtain ⟨hresult, hcalls⟩ := Prod.mk.inj (hrun.symm.trans (run_minimizeChecked hchecked))
    exact ⟨hresult, hcalls.symm⟩

/-- A line search that tries one step only. -/
def hasty : Lbfgs Float :=
  { double with lineSearch := { WolfeSettings.double with maxBracket := 1, maxZoom := 0 } }

/-- An objective that gives prepared replies in one variable, each a value and a derivative. -/
def prepared (replies : List (Float × Float)) : Rehearsal Float :=
  ⟨.script (replies.map fun r => ⟨r.1, [r.2]⟩), {}, 0⟩

/-- The first search fails after an evaluation that is not reported. -/
theorem evaluations_not_exact : ∃ r calls,
    (hasty.minimize [0]).run Rehearsal.next (prepared [(0, 1), (1, 1)]) [] = (.ok r, calls) ∧
      r.evaluations = 1 ∧ calls.length = 2 := by
  obtain ⟨⟨result, calls⟩, hrun⟩ : ∃ outcome, (hasty.minimize [0]).run Rehearsal.next
    (prepared [(0, 1), (1, 1)]) [] = outcome := ⟨_, rfl⟩
  have hreported : ((hasty.minimize [0]).run Rehearsal.next
      (prepared [(0, 1), (1, 1)]) []).1.toOption.map Minimum.evaluations = some 1 := by
    decide +kernel
  have hcalls : ((hasty.minimize [0]).run Rehearsal.next
      (prepared [(0, 1), (1, 1)]) []).2.length = 2 := by decide +kernel
  rw [hrun] at hreported hcalls
  cases result with
  | error cause => cases hreported
  | ok r => exact ⟨r, calls, hrun, Option.some.inj hreported, hcalls⟩

/-- The number of iterations that a minimisation reports is that of the steps it accepted and of the
searches after whose failure it went on without its curvature pairs, so that it is the number of
accepted steps just when there was no such failure. -/
theorem iterations_reported {σ : Type} (m : Lbfgs α) (start : List α)
    (objective : σ → List α → Reply α × σ) (state : σ) :
    ∃ result log calls, (m.minimizeRecorded start).run objective state [] = ((result, log), calls) ∧
      (m.minimize start).run objective state [] = (result, calls) ∧
      ∀ r, result = .ok r →
        r.iterations = log.countP Round.accepts + log.countP Round.restarts ∧
        (r.iterations = log.countP Round.accepts ↔ ∀ round ∈ log, round.restarts = false) := by
  obtain ⟨result, log, calls, hrecorded, hrun, hreports⟩ :=
    m.exists_run_reports start objective state
  refine ⟨result, log, calls, hrecorded, hrun, fun r hr => ?_⟩
  have hiterations : r.iterations = log.countP Round.accepts + log.countP Round.restarts :=
    (hreports r hr).iterations
  have hnone : log.countP Round.restarts = 0 ↔ ∀ round ∈ log, round.restarts = false := by
    simp [List.countP_eq_zero]
  refine ⟨hiterations, ?_⟩
  rw [← hnone]
  omega

/-- The same search in two rounds. -/
def hastyTwice : Lbfgs Float := { hasty with stopping := { hasty.stopping with maxIterations := 2 } }

/-- The second search fails, and no round is left to go on with: two iterations are reported, and one
step was accepted. -/
theorem iterations_not_exact : ∃ r log calls,
    (hastyTwice.minimizeRecorded [3]).run Rehearsal.next (prepared [(4, 4), (1, 2), (2, 2)]) [] =
      ((.ok r, log), calls) ∧ r.iterations = 2 ∧ log.countP Round.accepts = 1 := by
  obtain ⟨⟨⟨result, log⟩, calls⟩, hrun⟩ : ∃ outcome, (hastyTwice.minimizeRecorded [3]).run
    Rehearsal.next (prepared [(4, 4), (1, 2), (2, 2)]) [] = outcome := ⟨_, rfl⟩
  have hreported : ((hastyTwice.minimizeRecorded [3]).run Rehearsal.next
      (prepared [(4, 4), (1, 2), (2, 2)]) []).1.1.toOption.map Minimum.iterations = some 2 := by
    decide +kernel
  have haccepted : ((hastyTwice.minimizeRecorded [3]).run Rehearsal.next
      (prepared [(4, 4), (1, 2), (2, 2)]) []).1.2.countP Round.accepts = 1 := by decide +kernel
  rw [hrun] at hreported haccepted
  cases result with
  | error cause => cases hreported
  | ok r => exact ⟨r, log, calls, hrun, Option.some.inj hreported, haccepted⟩

end Lbfgs

end Autodiff
