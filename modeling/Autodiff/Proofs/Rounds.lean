import Autodiff.QuasiNewton
import Autodiff.Proofs.Dialogue

namespace Autodiff

/-- One round of a minimisation: where it stood, and the step that its line search settled on. -/
structure Round (α : Type) where
  state : Descent α
  found : Option (AcceptedStep α)

variable {α : Type} [Scalar α]

namespace Descent

/-- The direction in which a minimisation goes on. -/
def direction (s : Descent α) : List α := searchDirection s.reply.gradient s.pairs

/-- The line along which a round searches. -/
def line (m : Lbfgs α) (s : Descent α) : Line α :=
  ⟨s.x, s.direction, s.reply.value, dot s.reply.gradient s.direction, m.lineSearch⟩

/-- The line search of a round. -/
def search (m : Lbfgs α) (s : Descent α) : Dialogue α (Option (AcceptedStep α)) :=
  strongWolfeStep s.x s.direction s.reply s.firstStep m.lineSearch

end Descent

namespace Lbfgs

/-- Iterates, and puts the rounds in front of the earlier ones, the newest first. -/
def iterateRecorded (m : Lbfgs α) : Nat → Nat → Descent α → List (Round α) →
    Dialogue α (Except Fault (Minimum α) × List (Round α))
  | 0, iterations, s, log => return (.ok (s.finish iterations .maxIterations), log)
  | rounds + 1, iterations, s, log => do
    let found ← s.search m
    let log := ⟨s, found⟩ :: log
    match found with
    | none =>
      if s.pairs.isEmpty then return (.ok (s.finish iterations .lineSearchFailed), log)
      else m.iterateRecorded rounds (iterations + 1) { s with pairs := [] } log
    | some accepted =>
      match s.advance m.memory s.direction accepted with
      | .error cause => return (.error cause, log)
      | .ok (next, stepNorm) =>
        match m.stopping.check next.gradientNorm stepNorm s.reply.value next.reply.value with
        | some termination => return (.ok (next.finish (iterations + 1) termination), log)
        | none => m.iterateRecorded rounds (iterations + 1) next log

/-- Minimises, and gives the rounds of the main loop as well, the newest first. -/
def minimizeRecorded (m : Lbfgs α) (start : List α) :
    Dialogue α (Except Fault (Minimum α) × List (Round α)) := do
  let reply ← Dialogue.evaluate start
  let s : Descent α := ⟨start, reply, norm reply.gradient, [], 1⟩
  if !Scalar.isFinite reply.value || !Scalar.isFinite s.gradientNorm then
    return (.ok (s.finish 0 .numericalError), [])
  else if s.gradientNorm < m.stopping.gradientTolerance then
    return (.ok (s.finish 0 .gradientNorm), [])
  else if m.Reservable then m.iterateRecorded m.stopping.maxIterations 0 s []
  else return (.error .capacityOverflow, [])

theorem map_iterateRecorded (m : Lbfgs α) (rounds iterations : Nat) (s : Descent α)
    (log : List (Round α)) :
    (m.iterateRecorded rounds iterations s log).map (·.1) = m.iterate rounds iterations s := by
  induction rounds generalizing iterations s log with
  | zero => rfl
  | succ rounds ih =>
    unfold iterateRecorded iterate
    rw [Dialogue.map_bind]
    refine congrArg (_ >>= ·) (funext fun found => ?_)
    cases found with
    | none =>
      dsimp only
      split
      next => rfl
      next => exact ih _ _ _
    | some accepted =>
      dsimp only [Descent.direction]
      cases s.advance m.memory (searchDirection s.reply.gradient s.pairs) accepted with
      | error cause => rfl
      | ok moved =>
        dsimp only
        cases m.stopping.check moved.1.gradientNorm moved.2 s.reply.value moved.1.reply.value with
        | some termination => rfl
        | none => exact ih _ _ _

/-- Recording the rounds changes neither the calls nor the outcome. -/
theorem map_minimizeRecorded (m : Lbfgs α) (start : List α) :
    (m.minimizeRecorded start).map (·.1) = m.minimize start := by
  unfold minimizeRecorded minimize
  rw [Dialogue.map_bind]
  refine congrArg (_ >>= ·) (funext fun reply => ?_)
  dsimp only
  split
  next => rfl
  next =>
    split
    next => rfl
    next =>
      split
      next => exact map_iterateRecorded m _ _ _ _
      next => rfl

theorem exists_run_minimizeRecorded {σ : Type} (m : Lbfgs α) (start : List α)
    (objective : σ → List α → Reply α × σ) (state : σ) :
    ∃ result log calls, (m.minimizeRecorded start).run objective state [] = ((result, log), calls) ∧
      (m.minimize start).run objective state [] = (result, calls) := by
  obtain ⟨⟨⟨result, log⟩, calls⟩, heq⟩ :
      ∃ r, (m.minimizeRecorded start).run objective state [] = r := ⟨_, rfl⟩
  refine ⟨result, log, calls, heq, ?_⟩
  rw [← map_minimizeRecorded, Dialogue.run_map, heq]

variable {admits : List α → Reply α → Prop} {calls : List (Call α)}

/-- An invariant of the state, the rounds before it and the calls, kept by every round. A failed
search leaves the state without its curvature pairs. -/
def Maintains (m : Lbfgs α) (admits : List α → Reply α → Prop)
    (inv : Descent α → List (Round α) → List (Call α) → Prop) : Prop :=
  ∀ s log calls, inv s log calls → (s.search m).Ensures admits (fun found calls' =>
    match found with
    | none => inv { s with pairs := [] } (⟨s, none⟩ :: log) calls'
    | some accepted => ∃ next stepNorm,
        s.advance m.memory s.direction accepted = .ok (next, stepNorm) ∧
          inv next (⟨s, some accepted⟩ :: log) calls') calls

theorem check_ne_numericalError (r : StoppingRule α) (gradientNorm stepNorm previous value : α) :
    r.check gradientNorm stepNorm previous value ≠ some .numericalError := by
  unfold StoppingRule.check
  split
  next => exact nofun
  next =>
    split
    next => exact nofun
    next =>
      split
      next => exact nofun
      next => exact nofun

/-- What comes of the main loop: a state with the invariant is finished. -/
def Finished (inv : Descent α → List (Round α) → List (Call α) → Prop) (r : Minimum α)
    (log : List (Round α)) (calls : List (Call α)) : Prop :=
  ∃ s iterations termination, r = s.finish iterations termination ∧
    termination ≠ .numericalError ∧ inv s log calls

theorem iterateRecorded_ensures {m : Lbfgs α}
    {inv : Descent α → List (Round α) → List (Call α) → Prop} (hm : m.Maintains admits inv)
    (rounds iterations : Nat) {s : Descent α} {log : List (Round α)} (hs : inv s log calls) :
    (m.iterateRecorded rounds iterations s log).Ensures admits
      (fun outcome calls' => ∃ r, outcome.1 = .ok r ∧ Finished inv r outcome.2 calls') calls := by
  induction rounds generalizing iterations s log calls with
  | zero => exact ⟨_, rfl, s, _, _, rfl, nofun, hs⟩
  | succ rounds ih =>
    unfold iterateRecorded
    rw [Dialogue.ensures_bind]
    refine (hm s log calls hs).mono fun found calls' hfound _ _ => ?_
    cases found with
    | none =>
      dsimp only at hfound ⊢
      split
      next hempty =>
        have hsame : { s with pairs := [] } = s := by rw [← List.isEmpty_iff.mp hempty]
        rw [hsame] at hfound
        exact ⟨_, rfl, s, _, _, rfl, nofun, hfound⟩
      next => exact ih _ hfound
    | some accepted =>
      obtain ⟨next, stepNorm, hadvance, hnext⟩ := hfound
      simp only [hadvance]
      split
      next termination hcheck =>
        have hne : termination ≠ .numericalError := by
          rintro rfl
          exact check_ne_numericalError _ _ _ _ _ hcheck
        exact ⟨_, rfl, next, _, _, rfl, hne, hnext⟩
      next => exact ih _ hnext

/-- The start of a minimisation, after the first reply. -/
def initial (start : List α) (reply : Reply α) : Descent α :=
  ⟨start, reply, norm reply.gradient, [], 1⟩

/-- An objective cannot be minimised from where it gives this reply. -/
def Unusable (reply : Reply α) : Prop :=
  Scalar.isFinite reply.value = false ∨ Scalar.isFinite (norm reply.gradient) = false

theorem not_unusable_iff {reply : Reply α} : ¬Unusable reply ↔
    Scalar.isFinite reply.value = true ∧ Scalar.isFinite (norm reply.gradient) = true := by
  simp [Unusable]

/-- A minimisation breaks after this first reply: it is not done yet, and there is no room for its
curvature pairs. -/
structure Overflows (m : Lbfgs α) (first : Reply α) : Prop where
  usable : ¬Unusable first
  steep : ¬norm first.gradient < m.stopping.gradientTolerance
  memory : ¬m.Reservable

/-- As many curvature pairs as a word can count. -/
def boundless : Lbfgs Float := { double with memory := 0xffffffffffffffff }

/-- What comes of a minimisation after its first reply: a fault just when the room for the curvature
pairs overflows, and otherwise a result with a property. -/
inductive Yields (m : Lbfgs α) (first : Reply α) (P : Minimum α → Prop) :
    Except Fault (Minimum α) → Prop
  | overflow (h : m.Overflows first) : Yields m first P (.error .capacityOverflow)
  | result {r : Minimum α} (h : ¬m.Overflows first) (hr : P r) : Yields m first P (.ok r)

namespace Yields

variable {m : Lbfgs α} {first : Reply α} {P Q : Minimum α → Prop}
  {result : Except Fault (Minimum α)} {r : Minimum α}

theorem mono (h : m.Yields first P result) (hPQ : ∀ r, result = .ok r → P r → Q r) :
    m.Yields first Q result := by
  cases h with
  | overflow h => exact .overflow h
  | result h hr => exact .result h (hPQ _ rfl hr)

theorem error_or_ok (h : m.Yields first P result) :
    (result = .error .capacityOverflow ∧ m.Overflows first) ∨ ∃ r, result = .ok r ∧ P r := by
  cases h with
  | overflow h => exact .inl ⟨rfl, h⟩
  | result _ hr => exact .inr ⟨_, rfl, hr⟩

theorem of_ok (h : m.Yields first P result) (hr : result = .ok r) : P r := by
  subst hr
  cases h with
  | result _ hr => exact hr

theorem exists_ok (h : m.Yields first P result) (hm : m.Reservable) :
    ∃ r, result = .ok r ∧ P r := by
  cases h with
  | overflow h => exact absurd hm h.memory
  | result _ hr => exact ⟨_, rfl, hr⟩

end Yields

/-- How a minimisation ends after its first reply, with its rounds and its calls. If the room for the
curvature pairs overflows, this is before the first round. -/
structure Concludes (m : Lbfgs α) (start : List α) (first : Reply α)
    (P : Minimum α → List (Round α) → List (Call α) → Prop)
    (outcome : Except Fault (Minimum α) × List (Round α)) (calls : List (Call α)) : Prop where
  begins : [⟨start, first⟩] <:+ calls
  yields : m.Yields first (fun r => P r outcome.2 calls) outcome.1
  overflow : m.Overflows first → outcome.2 = [] ∧ calls = [⟨start, first⟩]

variable {m : Lbfgs α} {start : List α} {first : Reply α} {log : List (Round α)}

theorem concludes_result {P : Minimum α → List (Round α) → List (Call α) → Prop} {r : Minimum α}
    (hbegins : [⟨start, first⟩] <:+ calls) (h : ¬m.Overflows first) (hr : P r log calls) :
    m.Concludes start first P (.ok r, log) calls :=
  ⟨hbegins, .result h hr, fun hover => absurd hover h⟩

/-- A minimisation that has come to a round has a result. -/
theorem Concludes.result_of_round {P : Minimum α → List (Round α) → List (Call α) → Prop}
    {result : Except Fault (Minimum α)} (h : m.Concludes start first P (result, log) calls)
    (hlog : log ≠ []) : ∃ r, result = .ok r ∧ P r log calls := by
  cases h.yields with
  | overflow hover => exact absurd (h.overflow hover).1 hlog
  | result _ hr => exact ⟨_, rfl, hr⟩

variable {P : Reply α → Minimum α → List (Round α) → List (Call α) → Prop}

/-- A minimisation ends at once if the first reply is of no use or meets the tolerance, breaks if the
room for the curvature pairs overflows, and otherwise ends as its main loop does. -/
theorem minimizeRecorded_concludes
    (hunusable : ∀ first, admits start first → Unusable first →
      P first ((initial start first).finish 0 .numericalError) [] [⟨start, first⟩])
    (hflat : ∀ first, admits start first → ¬Unusable first →
      norm first.gradient < m.stopping.gradientTolerance →
      P first ((initial start first).finish 0 .gradientNorm) [] [⟨start, first⟩])
    (hloop : ∀ first, admits start first → ¬Unusable first →
      ¬norm first.gradient < m.stopping.gradientTolerance →
      (m.iterateRecorded m.stopping.maxIterations 0 (initial start first) []).Ensures admits
        (fun outcome calls => ∃ r, outcome.1 = .ok r ∧ P first r outcome.2 calls)
        [⟨start, first⟩]) :
    (m.minimizeRecorded start).Ensures admits
      (fun outcome calls => ∃ first, m.Concludes start first (P first) outcome calls) [] := by
  unfold minimizeRecorded
  rw [Dialogue.ensures_bind, Dialogue.ensures_evaluate]
  intro first hfirst
  suffices h : Dialogue.Ensures admits (m.Concludes start first (P first)) _ _ from
    h.mono fun outcome calls h _ _ => ⟨first, h⟩
  dsimp only
  split
  next hbad =>
    have hunusable' : Unusable first := by simpa [Unusable] using hbad
    exact concludes_result List.suffix_rfl (fun h => h.usable hunusable')
      (hunusable first hfirst hunusable')
  next hgood =>
    have husable : ¬Unusable first := not_unusable_iff.mpr (by simpa using hgood)
    split
    next hnorm =>
      exact concludes_result List.suffix_rfl (fun h => h.steep hnorm)
        (hflat first hfirst husable hnorm)
    next hnorm =>
      split
      next hroom =>
        refine (hloop first hfirst husable hnorm).mono fun outcome calls h hold _ => ?_
        obtain ⟨result, log⟩ := outcome
        obtain ⟨r, rfl, hr⟩ := h
        exact concludes_result hold (fun h => h.memory hroom) hr
      next hroom =>
        have hover : m.Overflows first := ⟨husable, hnorm, hroom⟩
        exact ⟨List.suffix_rfl, .overflow hover, fun _ => ⟨rfl, rfl⟩⟩

omit [Scalar α] in
/-- Calls begin with one reply. -/
theorem first_unique {first' : Reply α} (h : [⟨start, first⟩] <:+ calls)
    (h' : [⟨start, first'⟩] <:+ calls) : first = first' := by
  have hsuffix := List.suffix_of_suffix_length_le h h' (Nat.le_refl 1)
  simpa using hsuffix.eq_of_length rfl

/-- What is ensured of the end of a minimisation holds of a run, recorded or not. -/
theorem exists_run_concludes {σ : Type}
    (h : (m.minimizeRecorded start).Ensures admits
      (fun outcome calls => ∃ first, m.Concludes start first (P first) outcome calls) [])
    {objective : σ → List α → Reply α × σ}
    (ho : ∀ state point, admits point (objective state point).1) (state : σ) :
    ∃ result log calls, (m.minimizeRecorded start).run objective state [] = ((result, log), calls) ∧
      (m.minimize start).run objective state [] = (result, calls) ∧
      m.Concludes start (objective state start).1 (P (objective state start).1) (result, log)
        calls := by
  obtain ⟨result, log, calls, hrecorded, hrun⟩ :=
    m.exists_run_minimizeRecorded start objective state
  have hcall : [⟨start, (objective state start).1⟩] <:+
      ((m.minimizeRecorded start).run objective state []).2 := Dialogue.suffix_run _ objective _ _
  obtain ⟨first, hends⟩ := h.run ho state
  rw [hrecorded] at hcall hends
  obtain rfl := first_unique hcall hends.begins
  exact ⟨result, log, calls, hrecorded, hrun, hends⟩

/-- How a minimisation ends whose rounds keep an invariant: at once if the first reply is of no use,
and otherwise in a state that has the invariant. -/
inductive Keeps (inv : Descent α → List (Round α) → List (Call α) → Prop) (start : List α)
    (first : Reply α) : Minimum α → List (Round α) → List (Call α) → Prop
  | unusable (h : Unusable first) :
      Keeps inv start first ((initial start first).finish 0 .numericalError) [] [⟨start, first⟩]
  | finished {r : Minimum α} {log : List (Round α)} {calls : List (Call α)} (h : ¬Unusable first)
      (hr : Finished inv r log calls) : Keeps inv start first r log calls

theorem minimizeRecorded_keeps {inv : Descent α → List (Round α) → List (Call α) → Prop}
    (hm : m.Maintains admits inv)
    (hinitial : ∀ first, admits start first → ¬Unusable first →
      inv (initial start first) [] [⟨start, first⟩]) :
    (m.minimizeRecorded start).Ensures admits
      (fun outcome calls => ∃ first, m.Concludes start first (Keeps inv start first) outcome calls)
      [] := by
  refine minimizeRecorded_concludes (fun first _ hbad => .unusable hbad)
    (fun first hfirst husable _ => ?_) fun first hfirst husable _ => ?_
  · exact .finished husable ⟨_, _, _, rfl, nofun, hinitial first hfirst husable⟩
  · have hloop := iterateRecorded_ensures hm m.stopping.maxIterations 0
      (hinitial first hfirst husable)
    refine hloop.mono fun outcome calls h _ _ => ?_
    obtain ⟨r, hr, hfinished⟩ := h
    exact ⟨r, hr, .finished husable hfinished⟩

end Lbfgs

end Autodiff
