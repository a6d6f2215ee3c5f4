import Autodiff.Proofs.FloatArithmetic
import Autodiff.Proofs.DescentDirections
import Autodiff.Proofs.MonotoneDescent
import Autodiff.Proofs.CompiledObjective

namespace Autodiff

variable {α σ : Type}

/-- The values at the steps that were accepted, the newest first. -/
def acceptedValues (log : List (Round α)) : List α :=
  log.filterMap fun round => round.found.map (·.value)

/-- A minimisation stands at the last of the accepted values, which are in order of a relation, the
value at the start among them. -/
structure Descent.Ranked (R : α → α → Prop) (first : α) (s : Descent α) (log : List (Round α)) :
    Prop where
  last : (acceptedValues log ++ [first]).head? = some s.reply.value
  ranked : (acceptedValues log ++ [first]).Pairwise R

namespace Descent

variable {R : α → α → Prop} {first : α} {s next : Descent α} {log : List (Round α)}

theorem ranked_start (R : α → α → Prop) (s : Descent α) : s.Ranked R s.reply.value [] :=
  ⟨rfl, List.pairwise_singleton R _⟩

theorem Ranked.cleared (h : s.Ranked R first log) :
    Ranked R first { s with pairs := [] } (⟨s, none⟩ :: log) := ⟨h.last, h.ranked⟩

theorem Ranked.accept (htrans : ∀ a b c, R a b → R b c → R a c) (h : s.Ranked R first log)
    {a : AcceptedStep α} (hvalue : next.reply.value = a.value) (hless : R a.value s.reply.value) :
    next.Ranked R first (⟨s, some a⟩ :: log) := by
  have hvalues : acceptedValues (⟨s, some a⟩ :: log) ++ [first] =
      a.value :: (acceptedValues log ++ [first]) := rfl
  obtain ⟨hlast, hranked⟩ := h
  cases hold : acceptedValues log ++ [first] with
  | nil =>
    rw [hold] at hlast
    cases hlast
  | cons v older =>
    rw [hold] at hlast hranked
    obtain rfl : v = s.reply.value := Option.some.inj hlast
    constructor
    · rw [hvalues, hvalue]
      rfl
    · rw [hvalues, hold]
      refine List.pairwise_cons.mpr ⟨fun w hw => ?_, hranked⟩
      rcases List.mem_cons.mp hw with rfl | hw
      · exact hless
      · exact htrans _ _ _ hless ((List.pairwise_cons.mp hranked).1 w hw)

end Descent

variable [Scalar α]

namespace Lbfgs

variable {admits : List α → Reply α → Prop}

/-- A minimisation that started with a usable reply stands at the last of the accepted values, which
are in order of a relation. -/
structure Ranks (R : α → α → Prop) (start : List α) (s : Descent α) (log : List (Round α))
    (calls : List (Call α)) : Prop where
  stands : s.Stands start.length calls
  sized : Sized start.length calls
  ranked : ∃ first, [⟨start, first⟩] <:+ calls ∧ ¬Unusable first ∧ s.Ranked R first.value log

/-- Accepted steps that lead from one value to the next in order of a relation keep all accepted
values in that order. -/
theorem maintains_ranked {m : Lbfgs α} {start : List α} {R : α → α → Prop} {ends tried : α → Prop}
    (htrans : ∀ a b c, R a b → R b c → R a c)
    (hrange : ∀ s : Descent α, (s.line m).Range ends tried)
    (hfirst : ∀ s calls, Descent.Stands start.length calls s → (s.line m).Downhill →
      tried s.firstStep)
    (hless : ∀ s calls a, Descent.Stands start.length calls s → (s.line m).Downhill →
      (s.line m).Settles tried s.reply.gradient calls a → R a.value s.reply.value)
    (hadmits : ∀ point reply, admits point reply → point.length = start.length →
      reply.gradient.length = start.length)
    (hzero : (0 : α) < 0 → ∀ x d : List α, x.length = d.length → along x d 0 = x) :
    m.Maintains admits (Ranks R start) := by
  intro s log calls ⟨hs, hsized, first, hcall, husable, hranked⟩
  refine (search_ensures (hrange s) (hfirst s calls hs) hadmits hzero hs hsized).mono
    fun found calls' h hold _ => ?_
  obtain ⟨hs', hsized', hfound⟩ := h
  cases found with
  | none =>
    exact ⟨⟨hs'.1, hs'.2, hs'.3, hs'.4, hs'.5⟩, hsized', first, hcall.trans hold, husable,
      hranked.cleared⟩
  | some a =>
    obtain ⟨hdown, hsettles, hadvance, hmoved⟩ := hfound a rfl
    exact ⟨_, _, hadvance, hmoved, hsized', first, hcall.trans hold, husable,
      hranked.accept htrans rfl (hless s calls' a hs' hdown hsettles)⟩

/-- What a minimisation from a start returns, where the objective first gave this reply: a point
with the reply that was given there, which is the start if the first reply is of no use. Otherwise
the value is finite and the last one accepted, and the accepted values are in order of a
relation. -/
structure Returns (R : α → α → Prop) (start : List α) (first : Reply α) (r : Minimum α)
    (log : List (Round α)) (calls : List (Call α)) : Prop where
  called : (⟨r.x, ⟨r.value, r.gradient⟩⟩ : Call α) ∈ calls
  gradientNorm : r.gradientNorm = norm r.gradient
  numericalError : r.termination = .numericalError ↔ Unusable first
  start : Unusable first → r.x = start
  finite : ¬Unusable first → Scalar.isFinite r.value = true
  last : ¬Unusable first → (acceptedValues log ++ [first.value]).head? = some r.value
  ranked : ¬Unusable first → (acceptedValues log ++ [first.value]).Pairwise R

theorem returns_start (R : α → α → Prop) {start : List α} {first : Reply α}
    (h : Unusable first) :
    Returns R start first ((initial start first).finish 0 .numericalError) []
      [⟨start, first⟩] where
  called := List.mem_cons_self
  gradientNorm := rfl
  numericalError := iff_of_true rfl h
  start _ := rfl
  finite hn := absurd h hn
  last hn := absurd h hn
  ranked hn := absurd h hn

theorem returns_finish {R : α → α → Prop} {start : List α} {first : Reply α} {s : Descent α}
    {log : List (Round α)} {calls : List (Call α)} {n : Nat} (hs : s.Stands n calls)
    (husable : ¬Unusable first) (hranked : s.Ranked R first.value log) (iterations : Nat)
    {termination : Termination} (ht : termination ≠ .numericalError) :
    Returns R start first (s.finish iterations termination) log calls where
  called := hs.called
  gradientNorm := hs.gradientNorm
  numericalError := iff_of_false ht husable
  start h := absurd h husable
  finite _ := hs.finite
  last _ := hranked.last
  ranked _ := hranked.ranked

/-- A minimisation that keeps the accepted values in order returns such a point, whatever the
objective replies. -/
theorem run_returns {m : Lbfgs α} {start : List α} {R : α → α → Prop}
    (hm : m.Maintains (FullGradient start.length) (Ranks R start))
    {objective : σ → List α → Reply α × σ} (hlen : ∀ state point, point.length = start.length →
      (objective state point).1.gradient.length = start.length) (state : σ) :
    ∃ result log calls,
      (m.minimizeRecorded start).run objective state [] = ((result, log), calls) ∧
      (m.minimize start).run objective state [] = (result, calls) ∧
      m.Yields (objective state start).1
        (fun r => Returns R start (objective state start).1 r log calls) result := by
  have hinitial (first : Reply α) (hfirst : FullGradient start.length start first)
      (husable : ¬Unusable first) : Ranks R start (initial start first) [] [⟨start, first⟩] := by
    have hstands := stands_initial rfl (hfirst rfl) husable
    exact ⟨hstands.1, hstands.2, first, List.suffix_rfl, husable,
      Descent.ranked_start R (initial start first)⟩
  obtain ⟨result, log, calls, hrecorded, hrun, hends⟩ :=
    exists_run_concludes (minimizeRecorded_keeps hm hinitial) hlen state
  refine ⟨result, log, calls, hrecorded, hrun, hends.yields.mono fun r _ hr => ?_⟩
  have hbegins := hends.begins
  cases hr with
  | unusable hbad => exact returns_start R hbad
  | finished _ hfinished =>
    obtain ⟨s, iterations, termination, rfl, ht, hs, -, first, hcall, husable, hranked⟩ := hfinished
    obtain rfl := first_unique hbegins hcall
    exact returns_finish hs husable hranked iterations ht

theorem maintains_any (m : Lbfgs α) (start : List α) (hzero : ¬(0 : α) < 0) :
    m.Maintains (FullGradient start.length) (Ranks (fun _ _ => True) start) :=
  maintains_ranked (fun _ _ _ _ _ => trivial) (fun s => (s.line m).range_of_forall)
    (fun _ _ _ _ => trivial) (fun _ _ _ _ _ _ => trivial) (fun _ _ h => h)
    fun hlt => absurd hlt hzero

/-- No accepted step leads to a larger value. -/
theorem maintains_le [RoundedScalar α] (m : Lbfgs α) (start : List α)
    (hc1 : 0 ≤ m.lineSearch.c1) :
    m.Maintains (FullGradient start.length) (Ranks (· ≤ ·) start) :=
  maintains_ranked RoundedScalar.le_trans (fun s => (s.line m).range_not_neg)
    (fun _ _ hs _ => hs.firstStep_not_neg)
    (fun _ _ _ hs hdown hsettles =>
      hsettles.value_le hs.finite hc1 (slope_neg hdown.1 hdown.2))
    (fun _ _ h => h) fun hlt => absurd hlt (RoundedScalar.lt_irrefl 0)

/-- In exact arithmetic every accepted step leads to a smaller value. -/
theorem maintains_lt {α : Type} [OrderedScalar α] [PositiveRoots α] (m : Lbfgs α) (start : List α)
    (hc1 : 0 < m.lineSearch.c1) :
    m.Maintains (FullGradient start.length) (Ranks (· < ·) start) :=
  maintains_ranked (fun _ _ _ => lt_trans) (fun s => (s.line m).range_pos)
    (fun _ _ hs hdown => hs.firstStep_pos (not_le.mp hdown.1))
    (fun _ _ _ _ hdown hsettles => hsettles.value_lt hc1 (not_le.mp hdown.1))
    (fun _ _ h => h) fun hlt => absurd hlt (lt_irrefl 0)

/-- The value that is returned is not above the one at the start. -/
theorem Returns.value_le [RoundedScalar α] {start : List α} {first : Reply α} {r : Minimum α}
    {log : List (Round α)} {calls : List (Call α)} (h : Returns (· ≤ ·) start first r log calls)
    (hr : r.termination ≠ .numericalError) : r.value ≤ first.value := by
  have husable : ¬Unusable first := fun hbad => hr (h.numericalError.mpr hbad)
  have hlast := h.last husable
  have hranked := h.ranked husable
  cases haccepted : acceptedValues log with
  | nil =>
    rw [haccepted] at hlast
    have heq : first.value = r.value := Option.some.inj hlast
    rw [heq]
    exact RoundedScalar.defined_of_isFinite _ (h.finite husable)
  | cons v older =>
    rw [haccepted] at hlast hranked
    have heq : v = r.value := Option.some.inj hlast
    rw [← heq]
    exact (List.pairwise_cons.mp hranked).1 _ (by simp)

/-- Minimising a compiled term from a point of its domain ends in its domain, if there is room for the
curvature pairs. -/
theorem compiled_returns [SoundTests α] (m : Lbfgs α) {g : Graph α} {root : Expr}
    {vars params : List Var} {t : Tape α} (ht : g.compileParametric root vars params = .ok t)
    {start p : List α} {y : α × List α} (hy : t.evaluateParametric start p = .ok y) :
    m.Yields (t.reply p start) (fun r =>
        t.evaluateParametric r.x p = .ok (r.value, r.gradient) ∧
        g.evaluate root (vars ++ params) (r.x ++ p) = .ok r.value)
      ((m.minimize start).run (fun (_ : Unit) point => (t.reply p point, ())) () []).1 := by
  obtain ⟨order, l, ho, hrenders⟩ : ∃ order l, g.reachable root = .ok order ∧
      t.Renders g root order vars params l := by
    rcases g.compileParametric_cases root vars params with
      ⟨t', order, l, hc, ho, hr⟩ | ⟨id, order, hc, -⟩ | ⟨e, hc, -⟩
    · obtain rfl : t = t' := Except.ok.inj (ht.symm.trans hc)
      exact ⟨order, l, ho, hr⟩
    · cases ht.symm.trans hc
    · cases ht.symm.trans hc
  obtain ⟨hstart, hp⟩ := Tape.lengths_of_evaluateParametric hy
  have hvars : start.length = vars.length := hstart.trans hrenders.inputs
  have hlen (_ : Unit) (point : List α) (hpoint : point.length = start.length) :
      (t.reply p point, ()).1.gradient.length = start.length :=
    (hrenders.length_reply (hpoint.trans hvars) (hp.trans hrenders.params)).trans hpoint
  obtain ⟨result, log, calls, -, hrun, hyields⟩ :=
    run_returns (m.maintains_any start SoundTests.not_zero_lt_zero) hlen ()
  rw [hrun]
  refine hyields.mono fun r _ hreturns => ?_
  have hreply : t.reply p r.x = ⟨r.value, r.gradient⟩ := by
    have hall : ∀ c ∈ ((m.minimize start).run
        (fun (_ : Unit) point => (t.reply p point, ())) () []).2, t.reply p c.point = c.reply :=
      Dialogue.forall_run (P := fun point reply => t.reply p point = reply) (fun _ _ => rfl) _ ()
        (by simp)
    rw [hrun] at hall
    exact hall _ hreturns.called
  have heval : t.evaluateParametric r.x p = .ok (r.value, r.gradient) := by
    by_cases hbad : Unusable (t.reply p start)
    · rw [Tape.reply, hreturns.start hbad, hy] at hreply
      rw [hreturns.start hbad, hy]
      exact congrArg Except.ok (Prod.ext (congrArg Reply.value hreply)
        (congrArg Reply.gradient hreply))
    · have hf : Scalar.isFinite (t.reply p r.x).value = true := by
        rw [hreply]
        exact hreturns.finite hbad
      rw [Tape.evaluateParametric_of_isFinite hf, hreply]
  exact ⟨heval, hrenders.evaluate_eq_ok ho heval⟩

/-- Unless the room for the curvature pairs overflows, a minimisation returns a consistent point that
is never worse than the start: its value and gradient are one of the replies of the objective, given
at that very point, and the accepted values never increase. They decrease in exact arithmetic. With a
compiled term whose domain contains the start the point is in the domain as well. -/
theorem returns_never_worse {α β σ : Type} [Scalar α] [RoundedScalar α] [SoundTests α]
    [OrderedScalar β] [PositiveRoots β] :
    (∀ (m : Lbfgs α) (start : List α) (objective : σ → List α → Reply α × σ) (state : σ),
      0 ≤ m.lineSearch.c1 →
      (∀ state point, point.length = start.length →
        (objective state point).1.gradient.length = start.length) →
      ∃ result log calls,
        (m.minimizeRecorded start).run objective state [] = ((result, log), calls) ∧
        (m.minimize start).run objective state [] = (result, calls) ∧
        m.Yields (objective state start).1 (fun r =>
          Returns (· ≤ ·) start (objective state start).1 r log calls ∧
          (r.termination ≠ .numericalError → r.value ≤ (objective state start).1.value)) result) ∧
    (∀ (m : Lbfgs β) (start : List β) (objective : σ → List β → Reply β × σ) (state : σ),
      0 < m.lineSearch.c1 →
      (∀ state point, point.length = start.length →
        (objective state point).1.gradient.length = start.length) →
      ∃ result log calls,
        (m.minimizeRecorded start).run objective state [] = ((result, log), calls) ∧
        (m.minimize start).run objective state [] = (result, calls) ∧
        m.Yields (objective state start).1
          (fun r => Returns (· < ·) start (objective state start).1 r log calls) result) ∧
    (∀ (m : Lbfgs α) (g : Graph α) (root : Expr) (vars params : List Var) (t : Tape α)
      (start p : List α) (y : α × List α),
      g.compileParametric root vars params = .ok t → t.evaluateParametric start p = .ok y →
      m.Yields (t.reply p start) (fun r =>
          t.evaluateParametric r.x p = .ok (r.value, r.gradient) ∧
          g.evaluate root (vars ++ params) (r.x ++ p) = .ok r.value)
        ((m.minimize start).run (fun (_ : Unit) point => (t.reply p point, ())) () []).1) := by
  refine ⟨fun m start objective state hc1 hlen => ?_, fun m start objective state hc1 hlen => ?_,
    fun m g root vars params t start p y ht hy => ?_⟩
  · obtain ⟨result, log, calls, hrecorded, hrun, hyields⟩ :=
      run_returns (m.maintains_le start hc1) hlen state
    exact ⟨result, log, calls, hrecorded, hrun, hyields.mono fun r _ hr => ⟨hr, hr.value_le⟩⟩
  · exact run_returns (m.maintains_lt start hc1) hlen state
  · exact m.compiled_returns ht hy

/-- The squared length of a point, which is undefined at the second call. -/
def faltering (calls : Nat) (point : List Float) : Reply Float × Nat :=
  let value := if calls = 1 then Scalar.nan else dot point point
  (⟨value, point.map (2 * ·)⟩, calls + 1)

/-- A variable less its logarithm. -/
def barrierGraph : Graph Float :=
  ⟨#[.variable ⟨0⟩, .unary .log ⟨0⟩, .unary .negate ⟨1⟩, .sum [⟨0⟩, ⟨2⟩]], 1⟩

theorem returns_never_worse_faltering :
    (∃ r log calls, (double.minimizeRecorded [3]).run faltering 0 [] = ((.ok r, log), calls) ∧
      (acceptedValues log).length = 2 ∧ Scalar.isFinite r.value = true ∧ r.value ≤ 9) ∧
    (∃ r log calls, (shortMemory.minimizeRecorded [3, 1]).run
        (fun calls point => (bowl point, calls + 1)) 0 [] = ((.ok r, log), calls) ∧
      (acceptedValues log).length = 3 ∧ (acceptedValues log ++ [11]).Pairwise (· < ·)) ∧
    ∃ t y r, barrierGraph.compileParametric ⟨3⟩ [⟨⟨0⟩, ⟨0⟩⟩] [] = .ok t ∧
      t.evaluateParametric [3] [] = .ok y ∧
      ((double.minimize [3]).run (fun (_ : Unit) point => (t.reply [] point, ())) () []).1 = .ok r ∧
      t.evaluateParametric r.x [] = .ok (r.value, r.gradient) := by
  obtain ⟨hrounded, hexact, hcompiled⟩ := returns_never_worse (α := Float) (β := ℚ) (σ := Nat)
  refine ⟨?_, ?_, ?_⟩
  · have hsteps : (acceptedValues
        ((double.minimizeRecorded [3]).run faltering 0 []).1.2).length = 2 := by decide +kernel
    obtain ⟨result, log, calls, hrun, -, hyields⟩ := hrounded double [3] faltering 0 (by decide)
      fun state point hpoint => by simp [faltering, hpoint]
    obtain ⟨r, rfl, hreturns, hle⟩ := hyields.exists_ok (by decide)
    have husable : ¬Unusable (faltering 0 [3]).1 := by
      unfold Unusable
      decide +kernel
    have hvalue : (faltering 0 [3]).1.value = 9 := by decide +kernel
    rw [hrun] at hsteps
    rw [hvalue] at hle
    exact ⟨r, log, calls, hrun, hsteps, hreturns.finite husable,
      hle fun hr => husable (hreturns.numericalError.mp hr)⟩
  · have hsteps : (acceptedValues ((shortMemory.minimizeRecorded [3, 1]).run
        (fun calls point => (bowl point, calls + 1)) 0 []).1.2).length = 3 := by decide +kernel
    obtain ⟨result, log, calls, hrun, -, hyields⟩ := hexact shortMemory [3, 1]
      (fun calls point => (bowl point, calls + 1)) 0 (by decide +kernel)
      fun state point hpoint => by simp [bowl, hpoint]
    obtain ⟨r, rfl, hreturns⟩ := hyields.exists_ok (by decide)
    have husable : ¬Unusable (bowl [3, 1]) := by
      unfold Unusable
      decide +kernel
    have hvalue : (bowl [3, 1]).value = 11 := by decide +kernel
    have hranked := hreturns.ranked husable
    rw [hrun] at hsteps
    rw [hvalue] at hranked
    exact ⟨r, log, calls, hrun, hsteps, hranked⟩
  · have hok : ((barrierGraph.compileParametric ⟨3⟩ [⟨⟨0⟩, ⟨0⟩⟩] []).toOption.bind
        fun t => (t.evaluateParametric [3] []).toOption).isSome = true := by decide +kernel
    obtain ⟨y, hsome⟩ := Option.isSome_iff_exists.mp hok
    obtain ⟨t, ht, hy⟩ := Option.bind_eq_some_iff.mp hsome
    have hyields := hcompiled double barrierGraph ⟨3⟩ [⟨⟨0⟩, ⟨0⟩⟩] [] t [3] [] y
      (toOption_eq_some.mp ht) (toOption_eq_some.mp hy)
    obtain ⟨r, hrun, heval, -⟩ := hyields.exists_ok (by decide)
    exact ⟨t, y, r, toOption_eq_some.mp ht, toOption_eq_some.mp hy, hrun, heval⟩

end Lbfgs

end Autodiff
