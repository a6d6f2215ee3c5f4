import Autodiff.Proofs.Counters
import Autodiff.Proofs.ReturnedPoints

namespace Autodiff

variable {α : Type} [Scalar α]

theorem searchDirection_nil (gradient : List α) :
    searchDirection gradient [] = gradient.map (- ·) := rfl

namespace StoppingRule

variable {r : StoppingRule α} {gradientNorm stepNorm previous value : α}

theorem check_eq_some {t : Termination}
    (h : r.check gradientNorm stepNorm previous value = some t) :
    (t = .gradientNorm ∧ gradientNorm < r.gradientTolerance) ∨
    (t = .stepSize ∧ stepNorm < r.stepTolerance ∧ ¬gradientNorm < r.gradientTolerance) ∨
    (t = .functionChange ∧ 0 < r.functionTolerance ∧
      Scalar.abs (previous - value) < r.functionTolerance ∧
      ¬gradientNorm < r.gradientTolerance ∧ ¬stepNorm < r.stepTolerance) := by
  unfold check at h
  split at h
  next hgradient => exact Or.inl ⟨(Option.some.inj h).symm, hgradient⟩
  next hgradient =>
    split at h
    next hstep => exact Or.inr (Or.inl ⟨(Option.some.inj h).symm, hstep, hgradient⟩)
    next hstep =>
      split at h
      next hvalue =>
        exact Or.inr (Or.inr ⟨(Option.some.inj h).symm, hvalue.1, hvalue.2, hgradient, hstep⟩)
      next => cases h

theorem check_eq_none (h : r.check gradientNorm stepNorm previous value = none) :
    ¬gradientNorm < r.gradientTolerance ∧ ¬stepNorm < r.stepTolerance ∧
      ¬(0 < r.functionTolerance ∧ Scalar.abs (previous - value) < r.functionTolerance) := by
  unfold check at h
  split at h
  next => cases h
  next hgradient =>
    split at h
    next => cases h
    next hstep =>
      split at h
      next => cases h
      next hvalue => exact ⟨hgradient, hstep, hvalue⟩

end StoppingRule

namespace Descent

variable {m : Lbfgs α} {s : Descent α} {a : AcceptedStep α} {calls calls' : List (Call α)}

/-- What an accepted step adds to the point. -/
def displacement (s : Descent α) (a : AcceptedStep α) : List α := s.direction.map (a.step * ·)

/-- The tolerance that an accepted step meets. -/
def met (m : Lbfgs α) (s : Descent α) (a : AcceptedStep α) : Option Termination :=
  m.stopping.check (norm a.gradient) (norm (s.displacement a)) s.reply.value a.value

/-- The point and the gradient have `n` coordinates. -/
structure Sizes (n : Nat) (s : Descent α) : Prop where
  x : s.x.length = n
  gradient : s.reply.gradient.length = n

theorem Sizes.accepted {n : Nat} (h : s.Sizes n)
    (hsearch : (s.search m).Leads calls (some a) calls') (hsized : Sized n calls') :
    a.gradient.length = n := by
  have hensures : (s.search m).Ensures (FullGradient n) _ calls :=
    strongWolfeStep_ensures rfl (s.line m).range_of_forall fun _ => trivial
  obtain ⟨-, hsettles⟩ := hensures.of_leads hsearch hsized a rfl
  rcases hsettles with ⟨hcall, -⟩ | ⟨-, -, -, hgradient⟩
  · exact hsized _ hcall ((length_along _ _ _).trans h.x)
  · rw [hgradient, h.gradient]

theorem Sizes.advance {n : Nat} (h : s.Sizes n)
    (hsearch : (s.search m).Leads calls (some a) calls') (hsized : Sized n calls') :
    s.advance m.memory s.direction a =
      .ok (s.moved m.memory s.direction a, norm (s.displacement a)) := by
  have ha := h.accepted hsearch hsized
  have hd : s.direction.length = n := by rw [direction, length_searchDirection, h.gradient]
  exact advance_eq m.memory (hd.trans h.x.symm) (ha.trans h.x.symm)

theorem Sizes.moved {n : Nat} (h : s.Sizes n)
    (hsearch : (s.search m).Leads calls (some a) calls') (hsized : Sized n calls') :
    (s.moved m.memory s.direction a).Sizes n :=
  ⟨(length_along _ _ _).trans h.x, h.accepted hsearch hsized⟩

theorem search_length_le {found : Option (AcceptedStep α)}
    (h : (s.search m).Leads calls found calls') :
    calls'.length ≤ calls.length + (m.lineSearch.maxBracket + m.lineSearch.maxZoom) := by
  have hensures : (s.search m).Ensures (fun _ _ => True) _ calls :=
    strongWolfeStep_length_le _ _ _ _ _
  exact hensures.of_leads h fun _ _ => trivial

end Descent

namespace Lbfgs

/-- The rounds of a minimisation that has met no tolerance yet, the newest first, with all calls and
the state that they led to. -/
inductive Follows (m : Lbfgs α) (start : List α) :
    List (Round α) → List (Call α) → Descent α → Prop
  | begun {first : Reply α} : ¬Unusable first →
      ¬norm first.gradient < m.stopping.gradientTolerance →
      Follows m start [] [⟨start, first⟩] (initial start first)
  | moved {log : List (Round α)} {calls calls' : List (Call α)} {s : Descent α}
      {a : AcceptedStep α} : Follows m start log calls s →
      (s.search m).Leads calls (some a) calls' → s.met m a = none →
      Follows m start (⟨s, some a⟩ :: log) calls' (s.moved m.memory s.direction a)
  | cleared {log : List (Round α)} {calls calls' : List (Call α)} {s : Descent α} :
      Follows m start log calls s → (s.search m).Leads calls none calls' → s.pairs ≠ [] →
      Follows m start (⟨s, none⟩ :: log) calls' { s with pairs := [] }

/-- The ways in which a minimisation ends. -/
inductive Ends (m : Lbfgs α) (start : List α) :
    Minimum α → List (Round α) → List (Call α) → Prop
  | unusable {first : Reply α} : Unusable first →
      Ends m start ((initial start first).finish 0 .numericalError) [] [⟨start, first⟩]
  | flat {first : Reply α} : norm first.gradient < m.stopping.gradientTolerance →
      Ends m start ((initial start first).finish 0 .gradientNorm) [] [⟨start, first⟩]
  | met {log : List (Round α)} {calls calls' : List (Call α)} {s : Descent α}
      {a : AcceptedStep α} {iterations : Nat} {termination : Termination} :
      Follows m start log calls s → log.length < m.stopping.maxIterations →
      (s.search m).Leads calls (some a) calls' → s.met m a = some termination →
      Ends m start ((s.moved m.memory s.direction a).finish iterations termination)
        (⟨s, some a⟩ :: log) calls'
  | stuck {log : List (Round α)} {calls calls' : List (Call α)} {s : Descent α}
      {iterations : Nat} : Follows m start log calls s → log.length < m.stopping.maxIterations →
      (s.search m).Leads calls none calls' → s.pairs = [] →
      Ends m start (s.finish iterations .lineSearchFailed) (⟨s, none⟩ :: log) calls'
  | spent {log : List (Round α)} {calls : List (Call α)} {s : Descent α} {iterations : Nat} :
      Follows m start log calls s → log.length = m.stopping.maxIterations →
      Ends m start (s.finish iterations .maxIterations) log calls

variable {m : Lbfgs α} {start : List α} {log : List (Round α)} {calls : List (Call α)}
  {s : Descent α} {r : Minimum α}

theorem Follows.sizes (h : Follows m start log calls s) (hsized : Sized start.length calls) :
    s.Sizes start.length := by
  induction h with
  | begun => exact ⟨rfl, hsized _ List.mem_cons_self rfl⟩
  | moved _ hsearch _ ih =>
    have hs := ih fun c hc => hsized c (hsearch.suffix.mem hc)
    exact hs.moved hsearch hsized
  | cleared _ hsearch _ ih =>
    have hs := ih fun c hc => hsized c (hsearch.suffix.mem hc)
    exact ⟨hs.x, hs.gradient⟩

theorem iterateRecorded_ends (rounds iterations : Nat) (h : Follows m start log calls s)
    (hsized : Sized start.length calls)
    (hrounds : rounds + log.length = m.stopping.maxIterations) :
    (m.iterateRecorded rounds iterations s log).Ensures (FullGradient start.length)
      (fun outcome calls' => ∃ r, outcome.1 = .ok r ∧ Ends m start r outcome.2 calls') calls := by
  induction rounds generalizing iterations s log calls with
  | zero => exact ⟨_, rfl, .spent h ((Nat.zero_add _).symm.trans hrounds)⟩
  | succ rounds ih =>
    unfold iterateRecorded
    rw [Dialogue.ensures_bind]
    refine (Dialogue.ensures_leads _ _).mono fun found calls' hsearch _ hnew => ?_
    have hlog : log.length < m.stopping.maxIterations := by omega
    have hsized' : Sized start.length calls' := fun c hc => (hnew c hc).elim (hsized c) id
    cases found with
    | none =>
      dsimp only
      split
      next hempty =>
        exact ⟨_, rfl, .stuck h hlog hsearch (List.isEmpty_iff.mp hempty)⟩
      next hpairs =>
        have hne : s.pairs ≠ [] := fun hnil => hpairs (List.isEmpty_iff.mpr hnil)
        refine ih _ (h.cleared hsearch hne) hsized' ?_
        rw [List.length_cons]
        omega
    | some a =>
      have hadvance := (h.sizes hsized).advance hsearch hsized'
      simp only [hadvance]
      split
      next termination hmet => exact ⟨_, rfl, .met h hlog hsearch hmet⟩
      next hmet =>
        refine ih _ (h.moved hsearch hmet) hsized' ?_
        rw [List.length_cons]
        omega

theorem minimizeRecorded_ends (m : Lbfgs α) (start : List α) :
    (m.minimizeRecorded start).Ensures (FullGradient start.length)
      (fun outcome calls => ∃ first, m.Concludes start first (Ends m start) outcome calls) [] := by
  refine minimizeRecorded_concludes (fun first _ hbad => .unusable hbad)
    (fun first _ _ hflat => .flat hflat) fun first hfirst husable hsteep => ?_
  refine iterateRecorded_ends _ _ (.begun husable hsteep) (fun c hc => ?_) rfl
  obtain rfl := List.mem_singleton.mp hc
  exact hfirst

theorem Follows.length_calls (h : Follows m start log calls s) :
    calls.length ≤ 1 + log.length * (m.lineSearch.maxBracket + m.lineSearch.maxZoom) := by
  induction h with
  | begun => exact Nat.le_add_right 1 _
  | moved _ hsearch _ ih =>
    have hle := Descent.search_length_le hsearch
    rw [List.length_cons, Nat.add_one_mul]
    omega
  | cleared _ hsearch _ ih =>
    have hle := Descent.search_length_le hsearch
    rw [List.length_cons, Nat.add_one_mul]
    omega

theorem Ends.length_calls (h : Ends m start r log calls) :
    calls.length ≤
      1 + m.stopping.maxIterations * (m.lineSearch.maxBracket + m.lineSearch.maxZoom) := by
  have hround {older : List (Round α)} {calls calls' : List (Call α)} {s : Descent α}
      {found : Option (AcceptedStep α)} (hfollows : Follows m start older calls s)
      (hlog : older.length < m.stopping.maxIterations)
      (hsearch : (s.search m).Leads calls found calls') : calls'.length ≤
        1 + m.stopping.maxIterations * (m.lineSearch.maxBracket + m.lineSearch.maxZoom) := by
    have hle := Descent.search_length_le hsearch
    have hcalls := hfollows.length_calls
    have hmore := Nat.mul_le_mul_right (m.lineSearch.maxBracket + m.lineSearch.maxZoom) hlog
    rw [Nat.succ_mul] at hmore
    omega
  cases h with
  | unusable => exact Nat.le_add_right 1 _
  | flat => exact Nat.le_add_right 1 _
  | met hfollows hlog hsearch => exact hround hfollows hlog hsearch
  | stuck hfollows hlog hsearch => exact hround hfollows hlog hsearch
  | spent hfollows hlog => exact hlog ▸ hfollows.length_calls

theorem Concludes.length_calls {first : Reply α}
    {outcome : Except Fault (Minimum α) × List (Round α)}
    (h : m.Concludes start first (Ends m start) outcome calls) : calls.length ≤
      1 + m.stopping.maxIterations * (m.lineSearch.maxBracket + m.lineSearch.maxZoom) := by
  obtain ⟨result, log⟩ := outcome
  cases h.yields with
  | overflow hover =>
    rw [(h.overflow hover).2]
    exact Nat.le_add_right 1 _
  | result _ hr => exact hr.length_calls

/-- The recorded search of a round is one that was carried on with the objective. -/
def Searched (m : Lbfgs α) (calls : List (Call α)) (round : Round α) : Prop :=
  ∃ before after, after <:+ calls ∧ (round.state.search m).Leads before round.found after

theorem Searched.mono {round : Round α} {calls' : List (Call α)} (h : Searched m calls round)
    (hold : calls <:+ calls') : Searched m calls' round := by
  obtain ⟨before, after, hafter, hsearch⟩ := h
  exact ⟨before, after, hafter.trans hold, hsearch⟩

theorem searched_cons {found : Option (AcceptedStep α)} {calls' : List (Call α)}
    (hlog : ∀ round ∈ log, Searched m calls round)
    (hsearch : (s.search m).Leads calls found calls') :
    ∀ round ∈ (⟨s, found⟩ :: log : List (Round α)), Searched m calls' round := by
  intro round hround
  rcases List.mem_cons.mp hround with rfl | hround
  · exact ⟨calls, calls', List.suffix_rfl, hsearch⟩
  · exact (hlog round hround).mono hsearch.suffix

theorem Follows.searched (h : Follows m start log calls s) :
    ∀ round ∈ log, Searched m calls round := by
  induction h with
  | begun => exact nofun
  | moved _ hsearch _ ih => exact searched_cons ih hsearch
  | cleared _ hsearch _ ih => exact searched_cons ih hsearch

theorem Ends.searched (h : Ends m start r log calls) : ∀ round ∈ log, Searched m calls round := by
  cases h with
  | unusable => exact nofun
  | flat => exact nofun
  | met hfollows _ hsearch _ => exact searched_cons hfollows.searched hsearch
  | stuck hfollows _ hsearch _ => exact searched_cons hfollows.searched hsearch
  | spent hfollows _ => exact hfollows.searched

/-- No accepted step before a round has met a tolerance. -/
theorem Follows.met (h : Follows m start log calls s) :
    ∀ round ∈ log, ∀ a, round.found = some a → round.state.met m a = none := by
  induction h with
  | begun => exact nofun
  | moved _ _ hmet ih =>
    intro round hround a ha
    rcases List.mem_cons.mp hround with rfl | hround
    · obtain rfl := Option.some.inj ha
      exact hmet
    · exact ih round hround a ha
  | cleared _ _ _ ih =>
    intro round hround a ha
    rcases List.mem_cons.mp hround with rfl | hround
    · cases ha
    · exact ih round hround a ha

theorem Follows.gradientNorm (h : Follows m start log calls s) :
    s.gradientNorm = norm s.reply.gradient := by
  induction h with
  | begun => rfl
  | moved => rfl
  | cleared _ _ _ ih => exact ih

end Lbfgs

/-- A minimisation goes on from the same point, without curvature pairs and so along the negative
gradient. -/
structure Descent.Restarts (s next : Descent α) : Prop where
  x : next.x = s.x
  reply : next.reply = s.reply
  pairs : next.pairs = []
  direction : next.direction = s.reply.gradient.map (- ·)

namespace Lbfgs

variable {m : Lbfgs α} {start : List α} {log : List (Round α)} {calls : List (Call α)}
  {s : Descent α} {r : Minimum α}

theorem restarts_cleared (s : Descent α) : s.Restarts { s with pairs := [] } :=
  ⟨rfl, rfl, rfl, searchDirection_nil _⟩

theorem Follows.prior {round : Round α} (h : Follows m start (round :: log) calls s) :
    ∃ calls', Follows m start log calls' round.state := by
  cases h with
  | moved hfollows => exact ⟨_, hfollows⟩
  | cleared hfollows => exact ⟨_, hfollows⟩

theorem Follows.restarts_nil {older : List (Round α)} {failed : Descent α}
    (h : Follows m start (⟨failed, none⟩ :: older) calls s) : failed.Restarts s := by
  cases h with
  | cleared => exact restarts_cleared failed

/-- The round after a failed search restarts. It is the newest one if no other came after it. -/
theorem Follows.restarts {newest : Round α} {newer older : List (Round α)} {failed : Descent α}
    (h : Follows m start (newer ++ ⟨failed, none⟩ :: older) calls newest.state) :
    ∃ rest round, newest :: newer = rest ++ [round] ∧ failed.Restarts round.state := by
  induction newer generalizing calls newest with
  | nil => exact ⟨[], newest, rfl, h.restarts_nil⟩
  | cons next newer ih =>
    obtain ⟨calls', hprior⟩ := h.prior
    obtain ⟨rest, round, heq, hrestarts⟩ := ih hprior
    exact ⟨newest :: rest, round, congrArg (newest :: ·) heq, hrestarts⟩

/-- A failed search that had curvature pairs does not end a minimisation: unless its round was the
last one allowed, the next round restarts. -/
theorem Ends.restarts (h : Ends m start r log calls) {newer older : List (Round α)}
    {failed : Descent α} (hlog : log = newer ++ ⟨failed, none⟩ :: older)
    (hpairs : failed.pairs ≠ []) :
    (∃ rest round, newer = rest ++ [round] ∧ failed.Restarts round.state) ∨
      (newer = [] ∧ r.termination = .maxIterations ∧ r.x = failed.x ∧
        r.value = failed.reply.value ∧ r.gradient = failed.reply.gradient) := by
  cases h with
  | unusable => simp at hlog
  | flat => simp at hlog
  | met hfollows _ _ _ =>
    cases newer with
    | nil => cases hlog
    | cons newest newer =>
      obtain ⟨rfl, rfl⟩ := List.cons.inj hlog
      exact Or.inl hfollows.restarts
  | stuck hfollows _ _ hempty =>
    cases newer with
    | nil =>
      cases (List.cons.inj hlog).1
      exact absurd hempty hpairs
    | cons newest newer =>
      obtain ⟨rfl, rfl⟩ := List.cons.inj hlog
      exact Or.inl hfollows.restarts
  | spent hfollows _ =>
    subst hlog
    cases newer with
    | nil =>
      have hrestarts := hfollows.restarts_nil
      exact Or.inr ⟨rfl, rfl, hrestarts.x, congrArg Reply.value hrestarts.reply,
        congrArg Reply.gradient hrestarts.reply⟩
    | cons newest newer =>
      obtain ⟨calls', hprior⟩ := hfollows.prior
      exact Or.inl hprior.restarts

/-- The newest round accepted a step, which led to the outcome. -/
structure ReachedBy (log : List (Round α)) (r : Minimum α) (s : Descent α) (a : AcceptedStep α) :
    Prop where
  newest : log.head? = some ⟨s, some a⟩
  x : r.x = along s.x s.direction a.step
  value : r.value = a.value
  gradient : r.gradient = a.gradient

/-- The reason that a minimisation reports is true of the point that it returns. -/
structure TrueReason (m : Lbfgs α) (start : List α) (r : Minimum α) (log : List (Round α))
    (calls : List (Call α)) : Prop where
  norm_gradient : r.gradientNorm = norm r.gradient
  gradientNorm : r.termination = .gradientNorm → r.gradientNorm < m.stopping.gradientTolerance
  stepSize : r.termination = .stepSize → ∃ s a, ReachedBy log r s a ∧
    norm (s.displacement a) < m.stopping.stepTolerance ∧
    ¬r.gradientNorm < m.stopping.gradientTolerance
  functionChange : r.termination = .functionChange → ∃ s a, ReachedBy log r s a ∧
    0 < m.stopping.functionTolerance ∧
    Scalar.abs (s.reply.value - r.value) < m.stopping.functionTolerance ∧
    ¬r.gradientNorm < m.stopping.gradientTolerance ∧
    ¬norm (s.displacement a) < m.stopping.stepTolerance
  /-- The last calls are those of a search from this point along the negative gradient. -/
  lineSearchFailed : r.termination = .lineSearchFailed → ∃ before,
    (strongWolfeStep r.x (r.gradient.map (- ·)) ⟨r.value, r.gradient⟩
      (Scalar.min (1 / r.gradientNorm) 1) m.lineSearch).Leads before none calls
  maxIterations : r.termination = .maxIterations → log.length = m.stopping.maxIterations ∧
    ∀ round ∈ log, ∀ a, round.found = some a →
      ¬norm a.gradient < m.stopping.gradientTolerance ∧
      ¬norm (round.state.displacement a) < m.stopping.stepTolerance ∧
      ¬(0 < m.stopping.functionTolerance ∧
        Scalar.abs (round.state.reply.value - a.value) < m.stopping.functionTolerance)
  numericalError : r.termination = .numericalError → log = [] ∧
    ∃ first, calls = [⟨start, first⟩] ∧ Unusable first ∧ r.x = start
  converged : r.termination.converged = true ↔ r.termination = .gradientNorm ∨
    r.termination = .stepSize ∨ r.termination = .functionChange

theorem converged_iff (t : Termination) :
    t.converged = true ↔ t = .gradientNorm ∨ t = .stepSize ∨ t = .functionChange := by
  cases t <;> decide

/-- An accepted step that meets a tolerance. -/
theorem trueReason_met {s : Descent α} {a : AcceptedStep α} {iterations : Nat} {t : Termination}
    (hmet : s.met m a = some t) :
    TrueReason m start ((s.moved m.memory s.direction a).finish iterations t)
      (⟨s, some a⟩ :: log) calls := by
  have hreached : ReachedBy (⟨s, some a⟩ :: log)
      ((s.moved m.memory s.direction a).finish iterations t) s a := ⟨rfl, rfl, rfl, rfl⟩
  refine ⟨rfl, ?_, ?_, ?_, ?_, ?_, ?_, converged_iff t⟩
  all_goals
    rintro rfl
    rcases StoppingRule.check_eq_some hmet with ⟨ht, h⟩ | ⟨ht, h⟩ | ⟨ht, h⟩
  all_goals cases ht
  · exact h
  · exact ⟨s, a, hreached, h⟩
  · exact ⟨s, a, hreached, h⟩

theorem Ends.trueReason (h : Ends m start r log calls) : TrueReason m start r log calls := by
  cases h with
  | unusable hbad =>
    refine ⟨rfl, ?_, ?_, ?_, ?_, ?_, fun _ => ⟨rfl, _, rfl, hbad, rfl⟩, converged_iff _⟩
    all_goals
      intro ht
      cases ht
  | flat hflat =>
    refine ⟨rfl, fun _ => hflat, ?_, ?_, ?_, ?_, ?_, converged_iff _⟩
    all_goals
      intro ht
      cases ht
  | met _ _ _ hmet => exact trueReason_met hmet
  | stuck hfollows _ hsearch hempty =>
    rw [Descent.search, Descent.direction, Descent.firstStep, hempty] at hsearch
    refine ⟨hfollows.gradientNorm, ?_, ?_, ?_, fun _ => ⟨_, hsearch⟩, ?_, ?_, converged_iff _⟩
    all_goals
      intro ht
      cases ht
  | spent hfollows hlog =>
    have hmet (round : Round α) (hround : round ∈ log) (a : AcceptedStep α)
        (ha : round.found = some a) := StoppingRule.check_eq_none (hfollows.met round hround a ha)
    refine ⟨hfollows.gradientNorm, ?_, ?_, ?_, ?_, fun _ => ⟨hlog, hmet⟩, ?_, converged_iff _⟩
    all_goals
      intro ht
      cases ht

/-- A minimisation stops after a bounded number of evaluations, whatever the objective replies. It
breaks after the first one if it is not done then and the room for the curvature pairs overflows, and
never otherwise. The reason that it reports is true of the point that it returns. A search that fails
with curvature pairs in use is no such reason: the next round goes on from the same point along the
negative gradient. -/
theorem stops_with_true_reason {σ : Type} (m : Lbfgs α) (start : List α)
    (objective : σ → List α → Reply α × σ) (state : σ)
    (hlen : ∀ state point, point.length = start.length →
      (objective state point).1.gradient.length = start.length) :
    ∃ result log calls,
      (m.minimizeRecorded start).run objective state [] = ((result, log), calls) ∧
      (m.minimize start).run objective state [] = (result, calls) ∧
      calls.length ≤
        1 + m.stopping.maxIterations * (m.lineSearch.maxBracket + m.lineSearch.maxZoom) ∧
      (m.Overflows (objective state start).1 →
        log = [] ∧ calls = [⟨start, (objective state start).1⟩]) ∧
      (∀ round ∈ log, Searched m calls round) ∧
      m.Yields (objective state start).1 (fun r =>
        TrueReason m start r log calls ∧
        ∀ newer older failed, log = newer ++ ⟨failed, none⟩ :: older → failed.pairs ≠ [] →
          (∃ rest round, newer = rest ++ [round] ∧ failed.Restarts round.state) ∨
            (newer = [] ∧ r.termination = .maxIterations ∧ r.x = failed.x ∧
              r.value = failed.reply.value ∧ r.gradient = failed.reply.gradient)) result := by
  obtain ⟨result, log, calls, hrecorded, hrun, hends⟩ :=
    exists_run_concludes (m.minimizeRecorded_ends start) hlen state
  refine ⟨result, log, calls, hrecorded, hrun, hends.length_calls, hends.overflow, ?_, ?_⟩
  · intro round hround
    obtain ⟨r, -, hr⟩ := hends.result_of_round (List.ne_nil_of_mem hround)
    exact hr.searched round hround
  · exact hends.yields.mono fun r _ hr =>
      ⟨hr.trueReason, fun newer older failed => hr.restarts⟩

/-- The squared length of a point. After some calls it is reported as larger wherever it is
taken. -/
def souring (good calls : Nat) (point : List Float) : Reply Float × Nat :=
  let value := if calls < good then dot point point else 100
  (⟨value, point.map (2 * ·)⟩, calls + 1)

/-- An accepted step, a failed search that clears its curvature pair, and another one that fails. -/
theorem stops_with_true_reason_souring : ∃ r log calls,
    (hasty.minimizeRecorded [3]).run (souring 2) 0 [] = ((.ok r, log), calls) ∧
      log.map (fun round => (round.found.isSome, round.state.pairs.length)) =
        [(false, 0), (false, 1), (true, 0)] ∧
      calls.length ≤ 1001 ∧
      ∃ before, (strongWolfeStep r.x (r.gradient.map (- ·)) ⟨r.value, r.gradient⟩
        (Scalar.min (1 / r.gradientNorm) 1) hasty.lineSearch).Leads before none calls := by
  have hrounds : ((hasty.minimizeRecorded [3]).run (souring 2) 0 []).1.2.map
      (fun round => (round.found.isSome, round.state.pairs.length)) =
        [(false, 0), (false, 1), (true, 0)] := by decide +kernel
  have htermination : ((hasty.minimizeRecorded [3]).run (souring 2) 0 []).1.1.toOption.map
      Minimum.termination = some .lineSearchFailed := by decide +kernel
  obtain ⟨result, log, calls, hrun, -, hcalls, -, -, hyields⟩ :=
    hasty.stops_with_true_reason [3] (souring 2) 0 fun state point hpoint => by
      rw [souring, List.length_map, hpoint]
  obtain ⟨r, rfl, hreason, -⟩ := hyields.exists_ok (by decide)
  rw [hrun] at hrounds htermination
  have hfailed : r.termination = .lineSearchFailed := Option.some.inj htermination
  exact ⟨r, log, calls, hrun, hrounds, hcalls, hreason.lineSearchFailed hfailed⟩

/-- The minimisation breaks after one call, and gives no reason for its end. -/
theorem minimize_boundless_breaks :
    (∀ calls point, (souring 2 calls point).1.gradient.length = point.length) ∧
      (boundless.minimize [3]).run (souring 2) 0 [] =
        (.error .capacityOverflow, [⟨[3], ⟨9, [6]⟩⟩]) :=
  ⟨fun _ _ => List.length_map _, by decide +kernel⟩

end Lbfgs

end Autodiff
