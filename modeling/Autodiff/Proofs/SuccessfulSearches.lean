import Autodiff.Proofs.RecordedSearches
import Autodiff.Proofs.RangedFloats

namespace Autodiff

open Scalar (IsDefined)

variable {α : Type} [Scalar α]

namespace Line

variable {l : Line α} {gradient : List α} {start : α}

/-- A trial that a search may settle on, or the start of the line. No trial so far meets the first
condition with a smaller value. -/
structure Best (l : Line α) (gradient : List α) (trials : List (Trial α)) (lo : Trial α) :
    Prop where
  reached : lo = l.origin gradient ∨
    (lo ∈ trials ∧ l.decreases lo = true ∧ lo.slope = dot lo.gradient l.d)
  least : ∀ t ∈ trials, l.decreases t = true → lo.value ≤ t.value

variable {trials : List (Trial α)} {lo hi previous t : Trial α} {first : Bool} {step : α}
  {log : SearchLog α}

theorem best_origin (l : Line α) (gradient : List α) : l.Best gradient [] (l.origin gradient) :=
  ⟨Or.inl rfl, nofun⟩

theorem Passes.of_false (h : l.Passes false previous t) : l.Passes first previous t :=
  ⟨h.1, fun _ => h.2 rfl⟩

/-- A trial that is no better leaves the best one. -/
theorem Best.keep (h : l.Best gradient trials lo) (hfails : ¬l.Passes false lo t) :
    l.Best gradient (t :: trials) lo := by
  refine ⟨h.reached.imp_right fun hlo => ⟨List.mem_cons_of_mem _ hlo.1, hlo.2⟩, ?_⟩
  intro u hu hdec
  rcases List.mem_cons.mp hu with rfl | hu
  · by_contra hless
    exact hfails ⟨hdec, fun _ => hless⟩
  · exact h.least u hu hdec

/-- A trial that is below everything that the best one is below takes its place. -/
theorem Best.improve (h : l.Best gradient trials lo) (ht : l.Probes step t)
    (hdec : l.decreases t = true) (hself : t.value ≤ t.value)
    (hbelow : ∀ v, lo.value ≤ v → t.value ≤ v) : l.Best gradient (t :: trials) t := by
  refine ⟨Or.inr ⟨List.mem_cons_self, hdec, ht.slope⟩, fun u hu hu' => ?_⟩
  rcases List.mem_cons.mp hu with rfl | hu
  · exact hself
  · exact hbelow _ (h.least u hu hu')

section Rounded

variable [RoundedScalar α]

theorem defined_value (h : l.decreases t = true) : IsDefined t.value ∧ IsDefined l.value := by
  rw [decreases, Bool.and_eq_true, decide_eq_true_eq] at h
  have hle := RoundedScalar.defined_of_le _ _ h.2
  exact ⟨hle.1, (RoundedScalar.defined_of_add _ _ hle.2).1⟩

theorem Best.defined (h : l.Best gradient trials lo) (ht : l.decreases t = true) :
    IsDefined lo.value := by
  rcases h.reached with rfl | ⟨-, hlo, -⟩
  · exact (defined_value ht).2
  · exact (defined_value hlo).1

theorem Best.replace (h : l.Best gradient trials lo) (ht : l.Probes step t)
    (hpasses : l.Passes false lo t) : l.Best gradient (t :: trials) t := by
  obtain ⟨hdec, hbetter⟩ := hpasses
  have hvalue := (defined_value hdec).1
  have hlt : t.value < lo.value :=
    RoundedScalar.lt_of_not_le hvalue (h.defined hdec) (hbetter rfl)
  exact h.improve ht hdec hvalue fun v hv =>
    RoundedScalar.le_trans _ _ _ (RoundedScalar.le_of_lt _ _ hlt) hv

/-- A trial that passes is the best one, also if there was none before that it could be compared
with. -/
theorem Best.pass (h : l.Best gradient trials previous) (hnew : trials = [] ∨ first = false)
    (ht : l.Probes step t) (hpasses : l.Passes first previous t) :
    l.Best gradient (t :: trials) t := by
  rcases hnew with rfl | rfl
  · refine ⟨Or.inr ⟨List.mem_cons_self, hpasses.1, ht.slope⟩, fun u hu _ => ?_⟩
    obtain rfl := List.mem_singleton.mp hu
    exact (defined_value hpasses.1).1
  · exact h.replace ht hpasses

theorem Widens.best (h : l.Widens gradient start first previous step log) :
    l.Best gradient log.trials previous ∧ (log.trials = [] ∨ first = false) := by
  induction h with
  | begun => exact ⟨best_origin l gradient, Or.inl rfl⟩
  | widened _ ht hpasses _ _ _ ih => exact ⟨ih.1.pass ih.2 ht hpasses, Or.inr rfl⟩

theorem Narrows.best (h : l.Narrows gradient start lo hi log) :
    l.Best gradient log.trials lo := by
  induction h with
  | overshot hwidens _ hfails => exact hwidens.best.1.keep fun hpasses => hfails hpasses.of_false
  | rising hwidens ht hpasses _ _ =>
    obtain ⟨hbest, hnew⟩ := hwidens.best
    exact hbest.pass hnew ht hpasses
  | worse _ _ _ hfails ih => exact ih.keep hfails
  | turned _ _ ht hpasses _ _ ih => exact ih.replace ht hpasses
  | moved _ _ ht hpasses _ _ ih => exact ih.replace ht hpasses

/-- A search ended in a bracket that it could not narrow further: its rounds were used up, or the
next step would have been one of its ends. -/
def Stalled (l : Line α) (t : Trial α) (log : SearchLog α) : Prop :=
  ∃ hi older, log.brackets = (t, hi) :: older ∧
    (older.length = l.params.maxZoom ∨ (interpolate t hi == t.step) = true ∨
      (interpolate t hi == hi.step) = true)

/-- A search settles on the best of its trials, and unless it stalled this meets the second
condition. -/
theorem Concludes.found {r : AcceptedStep α} (h : l.Concludes gradient start (some r) log) :
    ∃ t ∈ log.trials, l.decreases t = true ∧ t.slope = dot t.gradient l.d ∧
      (∀ u ∈ log.trials, l.decreases u = true → t.value ≤ u.value) ∧
      r = t.accept log.trials.length ∧ (l.flattens t = true ∨ l.Stalled t log) := by
  generalize hfound : some r = found at h
  cases h with
  | flat hwidens ht hpasses hflat =>
    obtain ⟨hbest, hnew⟩ := hwidens.best
    exact ⟨_, List.mem_cons_self, hpasses.1, ht.slope, (hbest.pass hnew ht hpasses).least,
      Option.some.inj hfound, Or.inl hflat⟩
  | flatInside hnarrows _ ht hpasses hflat =>
    exact ⟨_, List.mem_cons_self, hpasses.1, ht.slope, (hnarrows.best.replace ht hpasses).least,
      Option.some.inj hfound, Or.inl hflat⟩
  | @settled lo hi _ hnarrows hstop =>
    unfold settle at hfound
    split at hfound
    next hpos =>
      obtain ⟨older, hbrackets⟩ := hnarrows.newest
      have hbest := hnarrows.best
      rcases hbest.reached with rfl | ⟨hmem, hdec, hslope⟩
      · exact absurd hpos (RoundedScalar.lt_irrefl 0)
      · refine ⟨lo, hmem, hdec, hslope, hbest.least, Option.some.inj hfound,
          Or.inr ⟨hi, older, hbrackets, ?_⟩⟩
        rcases hstop with hspent | hmet
        · rw [hbrackets, List.length_cons] at hspent
          exact Or.inl (Nat.succ.inj hspent)
        · by_contra hnone
          simp only [not_or, Bool.not_eq_true] at hnone
          exact hmet hnone.2
    next => cases hfound
  | spent => cases hfound
  | limited => cases hfound

end Rounded

section Ranged

variable [RangedScalar α] {lo hi t : Trial α} {log : SearchLog α}

/-- A step is no larger than the first one and the limit of the bracketing, if this limit is
defined. -/
def Limited (l : Line α) (start step : α) : Prop :=
  IsDefined step → IsDefined l.params.maxStep → step ≤ Scalar.max start l.params.maxStep

theorem interpolate_limited (hlo : ¬lo.step < 0 ∧ l.Limited start lo.step)
    (hhi : ¬hi.step < 0 ∧ l.Limited start hi.step) : l.Limited start (interpolate lo hi) := by
  intro hdefined hmax
  obtain ⟨a, b, hends, -, hle⟩ := interpolate_between hlo.1 hhi.1 hdefined
  have hb := (RoundedScalar.defined_of_le _ _ hle).2
  have hlimit : b ≤ Scalar.max start l.params.maxStep := by
    rcases hends with ⟨-, rfl⟩ | ⟨-, rfl⟩
    · exact hhi.2 hb hmax
    · exact hlo.2 hb hmax
  exact RoundedScalar.le_trans _ _ _ hle hlimit

/-- An interpolated step that is not an end of the bracket is positive. -/
theorem Apart.pos (h : Apart lo hi) (hlo : ¬lo.step < 0) (hhi : ¬hi.step < 0)
    (hdefined : IsDefined (interpolate lo hi)) : 0 < interpolate lo hi := by
  obtain ⟨a, b, hends, hle, -⟩ := interpolate_between hlo hhi hdefined
  have ha : (0 : α) ≤ a := by
    refine RoundedScalar.le_of_not_lt (RoundedScalar.defined_of_le _ _ hle).1
      RoundedScalar.defined_zero ?_
    rcases hends with ⟨rfl, -⟩ | ⟨rfl, -⟩
    · exact hlo
    · exact hhi
  by_contra hzero
  have hback : interpolate lo hi ≤ a := RoundedScalar.le_trans _ _ _
    (RoundedScalar.le_of_not_lt RoundedScalar.defined_zero hdefined hzero) ha
  have hsame := RangedScalar.beq_of_le _ _ hback hle
  rcases hends with ⟨rfl, -⟩ | ⟨rfl, -⟩
  · exact Bool.false_ne_true (h.1.symm.trans hsame)
  · exact Bool.false_ne_true (h.2.symm.trans hsame)

theorem wider_pos (ht : IsDefined t.step → 0 < t.step) (hdec : l.decreases t = true)
    (hmax : ¬l.params.maxStep ≤ t.step)
    (hdefined : IsDefined (Scalar.min (t.step * Scalar.two) l.params.maxStep)) :
    0 < Scalar.min (t.step * Scalar.two) l.params.maxStep := by
  have hstep := defined_of_decreases hdec
  have hdouble : 0 < t.step * Scalar.two := RangedScalar.double_pos _ (ht hstep)
  have hlimit (h : IsDefined l.params.maxStep) : 0 < l.params.maxStep :=
    RoundedScalar.lt_of_lt_of_le (ht hstep) (RoundedScalar.le_of_lt _ _
      (RoundedScalar.lt_of_not_le hstep h hmax))
  unfold Scalar.min at hdefined ⊢
  split at hdefined
  next hnan =>
    rw [if_pos hnan]
    exact hlimit hdefined
  next hnan =>
    rw [if_neg hnan]
    split at hdefined
    next hlt =>
      rw [if_pos hlt]
      exact hlimit hdefined
    next hlt =>
      rw [if_neg hlt]
      exact hdouble

theorem wider_limited (hstart : 0 < start) (step : α) :
    l.Limited start (Scalar.min (step * Scalar.two) l.params.maxStep) := by
  intro _ hmax
  have hfirst : IsDefined start := ((RoundedScalar.lt_iff _ _).mp hstart).2.1
  have hlimit := Scalar.le_max_right hfirst hmax
  unfold Scalar.min
  split
  next => exact hlimit
  next hnan =>
    rw [Bool.not_eq_true] at hnan
    split
    next => exact hlimit
    next hlt =>
      exact RoundedScalar.le_trans _ _ _
        (RoundedScalar.le_of_not_lt hmax (RoundedScalar.defined_of_isNaN _ hnan) hlt) hlimit

/-- All steps that a search tries are positive and limited. -/
theorem range_limited (l : Line α) (hstart : 0 < start) :
    l.Range (fun s => ¬s < 0 ∧ l.Limited start s)
      fun s => (IsDefined s → 0 < s) ∧ l.Limited start s where
  start := by
    have hfirst : IsDefined start := ((RoundedScalar.lt_iff _ _).mp hstart).2.1
    refine ⟨RoundedScalar.lt_irrefl 0, fun _ _ => ?_⟩
    exact RoundedScalar.le_trans _ _ _ (RoundedScalar.le_of_lt _ _ hstart)
      (Scalar.le_max_left hfirst)
  tried_ends s hs := by
    refine ⟨fun hneg => ?_, hs.2⟩
    have hpos := hs.1 ((RoundedScalar.lt_iff _ _).mp hneg).1
    exact RoundedScalar.lt_asymm hpos hneg
  interpolate lo hi hlo hhi hapart hapart' :=
    ⟨Apart.pos ⟨hapart, hapart'⟩ hlo.1 hhi.1, interpolate_limited hlo hhi⟩
  widen t ht hdec hmax := ⟨wider_pos ht.1 hdec hmax, wider_limited hstart t.step⟩

/-- What a line search that settles on a step guarantees. -/
structure Guarantees (l : Line α) (start : α) (r : AcceptedStep α) (log : SearchLog α)
    (calls : List (Call α)) : Prop where
  pos : 0 < r.step
  limited : IsDefined l.params.maxStep → r.step ≤ Scalar.max start l.params.maxStep
  called : (⟨along l.x l.d r.step, ⟨r.value, r.gradient⟩⟩ : Call α) ∈ calls
  finite : Scalar.isFinite r.value = true
  value_le : r.value ≤ l.value + l.params.c1 * r.step * l.slope
  least : ∀ t ∈ log.trials, l.decreases t = true → r.value ≤ t.value
  evaluations : r.evaluations = calls.length
  evaluations_le : r.evaluations ≤ l.params.maxBracket + l.params.maxZoom
  /-- The exceptions are a bracket that was narrowed as often as is allowed, and one in which the
  next step would have been one of its ends. -/
  slope : Scalar.abs (dot r.gradient l.d) ≤ l.params.c2 * Scalar.abs l.slope ∨
    ∃ lo hi older, log.brackets = (lo, hi) :: older ∧ r = lo.accept r.evaluations ∧
      (older.length = l.params.maxZoom ∨ (interpolate lo hi == lo.step) = true ∨
        (interpolate lo hi == hi.step) = true)

theorem Concludes.guarantees {r : AcceptedStep α} {calls : List (Call α)}
    (h : l.Concludes gradient start (some r) log) (hstart : 0 < start) (hdown : l.Downhill)
    (hcalls : calls = log.trials.map l.call)
    (hlength : calls.length ≤ l.params.maxBracket + l.params.maxZoom) :
    l.Guarantees start r log calls := by
  obtain ⟨t, hmem, hdec, hslope, hleast, rfl, hflat⟩ := h.found
  have hlog : log.trials.length = calls.length := by rw [hcalls, List.length_map]
  obtain ⟨hpos, hlimited⟩ := h.range (range_limited l hstart)
    ⟨fun _ => hstart, fun hs _ => Scalar.le_max_left hs⟩ t hmem
  have hdefined := defined_of_decreases hdec
  have hneg : l.slope < 0 := slope_neg hdown.1 hdown.2
  have hdecrease := hdec
  rw [decreases, Bool.and_eq_true, decide_eq_true_eq] at hdecrease
  refine ⟨hpos hdefined, hlimited hdefined, ?_, hdecrease.1, hdecrease.2, hleast, hlog,
    hlog.le.trans hlength, ?_⟩
  · rw [hcalls]
    exact List.mem_map_of_mem hmem
  · rcases hflat with hflat | ⟨hi, older, hbrackets, hstalled⟩
    · rw [flattens, decide_eq_true_eq, hslope] at hflat
      have habs : Scalar.abs l.slope = -l.slope := if_pos hneg
      rw [habs]
      exact Or.inl (RangedScalar.le_mul_neg _ _ _ hflat)
    · exact Or.inr ⟨t, hi, older, hbrackets, rfl, hstalled⟩

end Ranged

end Line

/-- A line search that settles on a step from a positive first step guarantees all that is asked of
it, whatever the objective replies. -/
theorem strongWolfeStep_guarantees {σ : Type} [RangedScalar α] (x d : List α) (reply : Reply α)
    {start : α} (hstart : 0 < start) (params : WolfeSettings α)
    (objective : σ → List α → Reply α × σ) (state : σ) :
    ∃ found log calls,
      (strongWolfeRecorded x d reply start params).run objective state [] =
        ((found, log), calls) ∧
      (strongWolfeStep x d reply start params).run objective state [] = (found, calls) ∧
      calls = log.trials.map
        (Line.call ⟨x, d, reply.value, dot reply.gradient d, params⟩) ∧
      ∀ r, found = some r → Line.Guarantees
        ⟨x, d, reply.value, dot reply.gradient d, params⟩ start r log calls := by
  obtain ⟨l, hl⟩ : ∃ l : Line α, l = ⟨x, d, reply.value, dot reply.gradient d, params⟩ := ⟨_, rfl⟩
  obtain ⟨found, log, calls, hrecorded, hrun, hcalls, hends⟩ :=
    exists_run_strongWolfeRecorded hl objective state
  have hlength : (strongWolfeStep x d reply start params).Ensures (fun _ _ => True) _ [] :=
    strongWolfeStep_length_le x d reply start params
  have hbound : ((strongWolfeStep x d reply start params).run objective state []).2.length ≤
      0 + (params.maxBracket + params.maxZoom) := hlength.run (fun _ _ => trivial) state
  rw [hrun, Nat.zero_add] at hbound
  refine ⟨found, log, calls, hrecorded, hrun, hl ▸ hcalls, ?_⟩
  rintro r rfl
  rcases hends with ⟨-, hnone, -⟩ | ⟨hdown, hconcludes⟩
  · cases hnone
  · subst hl
    exact hconcludes.guarantees hstart hdown hcalls hbound

/-- The square root of the first coordinate, undefined where that is not positive. -/
def wall : List Float → Reply Float
  | x :: _ => if x ≤ 0 then ⟨Scalar.nan, [Scalar.nan]⟩ else ⟨x.sqrt, [0.5 / x.sqrt]⟩
  | [] => ⟨Scalar.nan, []⟩

/-- The settings for double precision, with fewer rounds. -/
def shortSearch : WolfeSettings Float := { WolfeSettings.double with maxZoom := 4 }

/-- A first step to where the objective is undefined is shortened. As the slope only gets steeper
towards that point, the search ends when its rounds are used up. -/
theorem strongWolfeStep_guarantees_wall : ∃ r log calls,
    (strongWolfeStep [1] [-1] (wall [1]) 1 shortSearch).run
      (fun (_ : Unit) point => (wall point, ())) () [] = (some r, calls) ∧
    (log.trials.map fun t => Scalar.isFinite t.value) = [true, true, true, true, false] ∧
    Line.Guarantees ⟨[1], [-1], (wall [1]).value, dot (wall [1]).gradient [-1], shortSearch⟩ 1 r
      log calls := by
  have hfound : ((strongWolfeRecorded [1] [-1] (wall [1]) 1 shortSearch).run
      (fun (_ : Unit) point => (wall point, ())) () []).1.1.isSome = true := by
    decide +kernel
  have htrials : (((strongWolfeRecorded [1] [-1] (wall [1]) 1 shortSearch).run
      (fun (_ : Unit) point => (wall point, ())) () []).1.2.trials.map
        fun t => Scalar.isFinite t.value) = [true, true, true, true, false] := by
    decide +kernel
  obtain ⟨found, log, calls, hrecorded, hrun, -, hguarantees⟩ :=
    strongWolfeStep_guarantees [1] [-1] (wall [1]) (by decide +kernel : (0 : Float) < 1)
      shortSearch (fun (_ : Unit) point => (wall point, ())) ()
  rw [hrecorded] at hfound htrials
  obtain ⟨r, rfl⟩ := Option.isSome_iff_exists.mp hfound
  exact ⟨r, log, calls, hrun, htrials, hguarantees r rfl⟩

end Autodiff
