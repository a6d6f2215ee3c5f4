import Autodiff.Proofs.MonotoneDescent
import Autodiff.Proofs.SuccessfulSearches

namespace Autodiff

variable {α : Type} [OrderedScalar α]

/-- A step lies strictly between the ends of a bracket, at least a tenth of its width away from
both. -/
structure Inside (lo hi : Trial α) (step : α) : Prop where
  lower : min lo.step hi.step < step
  upper : step < max lo.step hi.step
  margin_lo : |hi.step - lo.step| / 10 ≤ |step - lo.step|
  margin_hi : |hi.step - lo.step| / 10 ≤ |hi.step - step|

/-- Where an interpolated step lies inside the bracket, counted from `lo` in widths. -/
theorem interpolate_fraction (lo hi : Trial α) : ∃ r, 1 / 10 ≤ r ∧ r ≤ 9 / 10 ∧
    interpolate lo hi = lo.step + r * (hi.step - lo.step) := by
  obtain ⟨a, b, hends, hcases⟩ := interpolate_cases lo hi
  rw [OrderedScalar.two_eq, OrderedScalar.tenth_eq] at hcases
  have hab : a ≤ b := by
    rcases hends with ⟨-, -, h⟩ | ⟨-, -, h⟩
    · exact h.le
    · exact not_lt.mp h
  obtain ⟨r, hlow, hhigh, hr⟩ : ∃ r, 1 / 10 ≤ r ∧ r ≤ 9 / 10 ∧
      interpolate lo hi = a + r * (b - a) := by
    rcases hcases with hmid | ⟨x, y, ht, -, hleft, hright⟩
    · refine ⟨1 / 2, by norm_num, by norm_num, ?_⟩
      rw [hmid]
      ring
    · rcases hab.eq_or_lt with rfl | hlt
      · -- The bracket has no width, and the step is its only point.
        refine ⟨1 / 2, by norm_num, by norm_num, ?_⟩
        rw [ht, sub_self, zero_mul, zero_div, sub_zero, mul_zero, add_zero]
      · have hwidth : 0 < b - a := sub_pos.mpr hlt
        refine ⟨(interpolate lo hi - a) / (b - a), ?_, ?_, ?_⟩
        · rw [le_div_iff₀ hwidth]
          linarith [not_lt.mp hleft]
        · rw [div_le_iff₀ hwidth]
          linarith [not_lt.mp hright]
        · rw [div_mul_cancel₀ _ hwidth.ne']
          ring
  rcases hends with ⟨rfl, rfl, -⟩ | ⟨rfl, rfl, -⟩
  · exact ⟨r, hlow, hhigh, hr⟩
  · refine ⟨1 - r, by linarith, by linarith, ?_⟩
    rw [hr]
    ring

theorem interpolate_inside {lo hi : Trial α} (hne : lo.step ≠ hi.step) :
    Inside lo hi (interpolate lo hi) := by
  obtain ⟨r, hlow, hhigh, hr⟩ := interpolate_fraction lo hi
  have hpos : 0 < r := by linarith
  have hrest : 0 < 1 - r := by linarith
  have hlo : interpolate lo hi - lo.step = r * (hi.step - lo.step) := by rw [hr]; ring
  have hhi : hi.step - interpolate lo hi = (1 - r) * (hi.step - lo.step) := by rw [hr]; ring
  have hmargin {c w : α} (hc : 1 / 10 ≤ c) (hw : 0 ≤ w) : w / 10 ≤ c * w := by
    rw [div_eq_mul_one_div, mul_comm]
    exact mul_le_mul_of_nonneg_right hc hw
  have hbetween : min lo.step hi.step < interpolate lo hi ∧
      interpolate lo hi < max lo.step hi.step := by
    rcases hne.lt_or_gt with hlt | hlt
    · have hwidth := sub_pos.mpr hlt
      rw [min_eq_left hlt.le, max_eq_right hlt.le]
      exact ⟨sub_pos.mp (hlo ▸ mul_pos hpos hwidth), sub_pos.mp (hhi ▸ mul_pos hrest hwidth)⟩
    · have hwidth := sub_neg.mpr hlt
      rw [min_eq_right hlt.le, max_eq_left hlt.le]
      exact ⟨sub_neg.mp (hhi ▸ mul_neg_of_pos_of_neg hrest hwidth),
        sub_neg.mp (hlo ▸ mul_neg_of_pos_of_neg hpos hwidth)⟩
  refine ⟨hbetween.1, hbetween.2, ?_, ?_⟩
  · rw [hlo, abs_mul, abs_of_pos hpos]
    exact hmargin hlow (abs_nonneg _)
  · rw [hhi, abs_mul, abs_of_pos hrest]
    exact hmargin (by linarith) (abs_nonneg _)

/-- A bracket is at most nine tenths as wide as the one before it. -/
def Shrinks (newer older : Trial α × Trial α) : Prop :=
  |newer.2.step - newer.1.step| ≤ 9 / 10 * |older.2.step - older.1.step|

theorem Shrinks.swap {a b : Trial α} {older : Trial α × Trial α} (h : Shrinks (a, b) older) :
    Shrinks (b, a) older :=
  (abs_sub_comm _ _).trans_le h

theorem shrinks_lower {lo hi t : Trial α} (ht : t.step = interpolate lo hi) :
    Shrinks (lo, t) (lo, hi) := by
  obtain ⟨r, hlow, hhigh, hr⟩ := interpolate_fraction lo hi
  have hpos : 0 < r := by linarith
  have hdiff : t.step - lo.step = r * (hi.step - lo.step) := by rw [ht, hr]; ring
  unfold Shrinks
  rw [hdiff, abs_mul, abs_of_pos hpos]
  exact mul_le_mul_of_nonneg_right hhigh (abs_nonneg _)

theorem shrinks_upper {lo hi t : Trial α} (ht : t.step = interpolate lo hi) :
    Shrinks (t, hi) (lo, hi) := by
  obtain ⟨r, hlow, hhigh, hr⟩ := interpolate_fraction lo hi
  have hpos : 0 < 1 - r := by linarith
  have hdiff : hi.step - t.step = (1 - r) * (hi.step - lo.step) := by rw [ht, hr]; ring
  unfold Shrinks
  rw [hdiff, abs_mul, abs_of_pos hpos]
  exact mul_le_mul_of_nonneg_right (by linarith) (abs_nonneg _)

namespace Line

variable {l : Line α} {gradient : List α} {start : α} {first : Bool} {lo hi previous t : Trial α}
  {step : α} {log : SearchLog α} {trials : List (Trial α)}

/-- A trial that meets the first condition with a positive step is below the start. -/
theorem value_lt_of_decreases (hslope : l.slope < 0) (hc1 : 0 < l.params.c1) (hstep : 0 < t.step)
    (h : l.decreases t = true) : t.value < l.value := by
  rw [decreases, Bool.and_eq_true, decide_eq_true_eq] at h
  have hdrop : l.params.c1 * t.step * l.slope < 0 :=
    mul_neg_of_pos_of_neg (mul_pos hc1 hstep) hslope
  linarith [h.2]

/-- A slope that misses the second condition is not zero. -/
theorem slope_ne_zero (hslope : l.slope < 0) (hc2 : 0 ≤ l.params.c2) (h : l.flattens t = false) :
    t.slope ≠ 0 := by
  intro hzero
  have habs : Scalar.abs t.slope = 0 := by
    rw [hzero, Scalar.abs, if_neg (lt_irrefl 0)]
  have hlimit : 0 ≤ -l.params.c2 * l.slope := mul_nonneg_of_nonpos_of_nonpos
    (neg_nonpos.mpr hc2) hslope.le
  rw [flattens, habs, decide_eq_true hlimit] at h
  cases h

theorem Best.lower (h : l.Best gradient trials lo) (ht : l.Probes step t)
    (hpasses : l.Passes false lo t) : l.Best gradient (t :: trials) t :=
  h.improve ht hpasses.1 le_rfl fun _ hv => (not_le.mp (hpasses.2 rfl)).le.trans hv

/-- What a search has come to before it found a bracket: the best trial so far, where the objective
still falls, and a larger step to try next. -/
structure Advances (l : Line α) (gradient : List α) (trials : List (Trial α)) (previous : Trial α)
    (step : α) : Prop extends l.Best gradient trials previous where
  le_start : previous.value ≤ l.value
  falling : previous.slope < 0
  not_behind : 0 ≤ previous.step
  ahead : previous.step < step

/-- What a bracket encloses: of its ends `lo` is the best trial so far, or the start of the line,
and the objective falls from there towards the other end. -/
structure Encloses (l : Line α) (gradient : List α) (trials : List (Trial α)) (lo hi : Trial α) :
    Prop extends l.Best gradient trials lo where
  le_start : lo.value ≤ l.value
  falling : lo.slope * (hi.step - lo.step) < 0

theorem Encloses.apart (h : l.Encloses gradient trials lo hi) : lo.step ≠ hi.step := by
  intro heq
  have hfalling := h.falling
  rw [heq, sub_self, mul_zero] at hfalling
  exact lt_irrefl 0 hfalling

/-- The first trial need not be compared with the start, as the first condition puts it below. -/
theorem Widens.passes (h : l.Widens gradient start first previous step log) (hslope : l.slope < 0)
    (hc1 : 0 < l.params.c1) (ht : 0 < t.step) (hpasses : l.Passes first previous t) :
    l.Passes false previous t := by
  cases h with
  | begun => exact ⟨hpasses.1, fun _ => not_le.mpr (value_lt_of_decreases hslope hc1 ht hpasses.1)⟩
  | widened => exact hpasses

theorem Widens.advances (h : l.Widens gradient start first previous step log) (hslope : l.slope < 0)
    (hstart : 0 < start) (hc1 : 0 < l.params.c1) :
    l.Advances gradient log.trials previous step := by
  induction h with
  | begun => exact ⟨best_origin l gradient, le_refl _, hslope, le_refl _, hstart⟩
  | @widened first previous t step log hwidens ht hpasses _ hfalling hmax ih =>
    have hpos : 0 < t.step := ht.step ▸ ih.not_behind.trans_lt ih.ahead
    have hlower := hwidens.passes hslope hc1 hpos hpasses
    have hlimit : t.step < l.params.maxStep := ht.step ▸ not_le.mp hmax
    refine ⟨ih.toBest.lower ht hlower, ?_, not_le.mp hfalling, hpos.le, ?_⟩
    · exact (not_le.mp (hlower.2 rfl)).le.trans ih.le_start
    · have hdouble : t.step < t.step * Scalar.two := by
        rw [OrderedScalar.two_eq]
        linarith
      rw [← ht.step]
      unfold Scalar.min
      split
      next => exact hlimit
      next =>
        split
        next => exact hlimit
        next => exact hdouble

/-- Every bracket encloses what it should, with regard to the trials that led to it. -/
theorem Narrows.encloses (h : l.Narrows gradient start lo hi log) (hslope : l.slope < 0)
    (hstart : 0 < start) (hc1 : 0 < l.params.c1) (hc2 : 0 ≤ l.params.c2) :
    l.Encloses gradient log.trials lo hi := by
  induction h with
  | overshot hwidens ht hfails =>
    have hadvances := hwidens.advances hslope hstart hc1
    refine ⟨hadvances.toBest.keep fun hpasses => hfails hpasses.of_false, hadvances.le_start, ?_⟩
    rw [ht.step]
    exact mul_neg_of_neg_of_pos hadvances.falling (sub_pos.mpr hadvances.ahead)
  | @rising first previous t step log hwidens ht hpasses hsteep hrising =>
    -- The new trial is the better end, and the slope there points back to the one before.
    have hadvances := hwidens.advances hslope hstart hc1
    have hpos : 0 < t.step := ht.step ▸ hadvances.not_behind.trans_lt hadvances.ahead
    have hlower := hwidens.passes hslope hc1 hpos hpasses
    have hup : 0 < t.slope := lt_of_le_of_ne hrising (slope_ne_zero hslope hc2 hsteep).symm
    refine ⟨hadvances.toBest.lower ht hlower,
      (not_le.mp (hlower.2 rfl)).le.trans hadvances.le_start, ?_⟩
    rw [ht.step]
    exact mul_neg_of_pos_of_neg hup (sub_neg.mpr hadvances.ahead)
  | @worse lo hi t log _ _ ht hfails ih =>
    obtain ⟨r, hlow, -, hr⟩ := interpolate_fraction lo hi
    have hpos : 0 < r := by linarith
    refine ⟨ih.toBest.keep hfails, ih.le_start, ?_⟩
    calc lo.slope * (t.step - lo.step) = r * (lo.slope * (hi.step - lo.step)) := by
          rw [ht.step, hr]
          ring
      _ < 0 := mul_neg_of_pos_of_neg hpos ih.falling
  | @turned lo hi t log _ _ ht hpasses hsteep hturn ih =>
    -- Seen from the new trial, the old better end lies the other way than `hi`, where it falls.
    obtain ⟨r, hlow, -, hr⟩ := interpolate_fraction lo hi
    have hpos : 0 < r := by linarith
    have hne : t.slope * (hi.step - lo.step) ≠ 0 :=
      mul_ne_zero (slope_ne_zero hslope hc2 hsteep) (sub_ne_zero.mpr ih.apart.symm)
    have hup : 0 < t.slope * (hi.step - lo.step) := lt_of_le_of_ne hturn hne.symm
    refine ⟨ih.toBest.lower ht hpasses, (not_le.mp (hpasses.2 rfl)).le.trans ih.le_start, ?_⟩
    calc t.slope * (lo.step - t.step) = -(r * (t.slope * (hi.step - lo.step))) := by
          rw [ht.step, hr]
          ring
      _ < 0 := neg_neg_of_pos (mul_pos hpos hup)
  | @moved lo hi t log _ _ ht hpasses _ hturn ih =>
    obtain ⟨r, -, hhigh, hr⟩ := interpolate_fraction lo hi
    have hpos : 0 < 1 - r := by linarith
    refine ⟨ih.toBest.lower ht hpasses, (not_le.mp (hpasses.2 rfl)).le.trans ih.le_start, ?_⟩
    calc t.slope * (hi.step - t.step) = (1 - r) * (t.slope * (hi.step - lo.step)) := by
          rw [ht.step, hr]
          ring
      _ < 0 := mul_neg_of_pos_of_neg hpos (not_le.mp hturn)

/-- The history of a bracket. What each of its brackets encloses has regard to the trials up to this
bracket. -/
structure History (l : Line α) (gradient : List α) (trials : List (Trial α))
    (brackets : List (Trial α × Trial α)) : Prop where
  encloses : ∀ k lo hi, brackets[k]? = some (lo, hi) → l.Encloses gradient (trials.drop k) lo hi
  shrinks : brackets.IsChain Shrinks

theorem History.nil (trials : List (Trial α)) : l.History gradient trials [] :=
  ⟨fun _ _ _ hnone => (Option.some_ne_none _ hnone.symm).elim, .nil⟩

variable {brackets : List (Trial α × Trial α)}

theorem History.narrowed (h : l.History gradient trials brackets)
    (hencloses : l.Encloses gradient (t :: trials) lo hi)
    (hshrinks : ∀ older ∈ brackets.head?, Shrinks (lo, hi) older) :
    l.History gradient (t :: trials) ((lo, hi) :: brackets) := by
  refine ⟨fun k lo' hi' hk => ?_, List.isChain_cons.mpr ⟨hshrinks, h.shrinks⟩⟩
  cases k with
  | zero =>
    obtain ⟨rfl, rfl⟩ := Prod.mk.inj (Option.some.inj hk)
    exact hencloses
  | succ k => exact h.encloses k lo' hi' hk

theorem Narrows.history (h : l.Narrows gradient start lo hi log) (hslope : l.slope < 0)
    (hstart : 0 < start) (hc1 : 0 < l.params.c1) (hc2 : 0 ≤ l.params.c2) :
    l.History gradient log.trials log.brackets := by
  have hencloses {lo hi : Trial α} {log : SearchLog α}
      (h : l.Narrows gradient start lo hi log) : l.Encloses gradient log.trials lo hi :=
    h.encloses hslope hstart hc1 hc2
  have hfirst {first : Bool} {previous : Trial α} {step : α} {log : SearchLog α}
      (h : l.Widens gradient start first previous step log) :
      l.History gradient log.trials log.brackets ∧ log.brackets.head? = none := by
    rw [h.brackets]
    exact ⟨.nil _, rfl⟩
  have hlast {lo hi : Trial α} {log : SearchLog α} (h : l.Narrows gradient start lo hi log) :
      log.brackets.head? = some (lo, hi) := by
    obtain ⟨older, hbrackets⟩ := h.newest
    rw [hbrackets, List.head?_cons]
  induction h with
  | overshot hwidens ht hfails =>
    obtain ⟨hhistory, hnone⟩ := hfirst hwidens
    exact hhistory.narrowed (hencloses (.overshot hwidens ht hfails)) (by simp [hnone])
  | rising hwidens ht hpasses hsteep hrising =>
    obtain ⟨hhistory, hnone⟩ := hfirst hwidens
    exact hhistory.narrowed (hencloses (.rising hwidens ht hpasses hsteep hrising))
      (by simp [hnone])
  | worse hnarrows hapart ht hfails ih =>
    refine ih.narrowed (hencloses (.worse hnarrows hapart ht hfails)) ?_
    simpa [hlast hnarrows] using shrinks_lower ht.step
  | turned hnarrows hapart ht hpasses hsteep hturn ih =>
    refine ih.narrowed (hencloses (.turned hnarrows hapart ht hpasses hsteep hturn)) ?_
    simpa [hlast hnarrows] using (shrinks_lower ht.step).swap
  | moved hnarrows hapart ht hpasses hsteep hturn ih =>
    refine ih.narrowed (hencloses (.moved hnarrows hapart ht hpasses hsteep hturn)) ?_
    simpa [hlast hnarrows] using shrinks_upper ht.step

/-- A trial that ends the search at once comes after the last bracket. -/
theorem Concludes.history {found : Option (AcceptedStep α)}
    (h : l.Concludes gradient start found log) (hslope : l.slope < 0) (hstart : 0 < start)
    (hc1 : 0 < l.params.c1) (hc2 : 0 ≤ l.params.c2) :
    ∃ last before, log.trials = last ++ before ∧ (last = [] ∨ ∃ t, last = [t] ∧
        l.flattens t = true ∧ found = some (t.accept log.trials.length)) ∧
      l.History gradient before log.brackets := by
  have hnone {first : Bool} {previous : Trial α} {step : α} {log : SearchLog α}
      (h : l.Widens gradient start first previous step log) (trials : List (Trial α)) :
      l.History gradient trials log.brackets := by
    rw [h.brackets]
    exact .nil trials
  cases h with
  | @flat _ _ t _ log hwidens _ _ hflat =>
    exact ⟨[t], log.trials, rfl, Or.inr ⟨t, rfl, hflat, rfl⟩, hnone hwidens _⟩
  | @flatInside _ _ t log hnarrows _ _ _ hflat =>
    exact ⟨[t], log.trials, rfl, Or.inr ⟨t, rfl, hflat, rfl⟩,
      hnarrows.history hslope hstart hc1 hc2⟩
  | settled hnarrows _ =>
    exact ⟨[], log.trials, rfl, Or.inl rfl, hnarrows.history hslope hstart hc1 hc2⟩
  | spent hwidens _ => exact ⟨[], log.trials, rfl, Or.inl rfl, hnone hwidens _⟩
  | @limited _ _ t _ log hwidens _ _ _ _ _ =>
    exact ⟨[], t :: log.trials, rfl, Or.inl rfl, hnone hwidens _⟩

end Line

/-- In exact arithmetic, all brackets of a line search enclose what they should. The steps tried
inside of them keep away from both ends, and each bracket is narrower than the one before. -/
theorem strongWolfeStep_brackets {σ : Type} (x d : List α) (reply : Reply α) {start : α}
    (hstart : 0 < start) (params : WolfeSettings α) (hc1 : 0 < params.c1) (hc2 : 0 ≤ params.c2)
    (objective : σ → List α → Reply α × σ) (state : σ) :
    (∀ lo hi : Trial α, lo.step ≠ hi.step → Inside lo hi (interpolate lo hi)) ∧
    ∃ l : Line α, l = ⟨x, d, reply.value, dot reply.gradient d, params⟩ ∧
    ∃ found log calls last before,
      (strongWolfeRecorded x d reply start params).run objective state [] =
        ((found, log), calls) ∧
      (strongWolfeStep x d reply start params).run objective state [] = (found, calls) ∧
      calls = log.trials.map l.call ∧
      log.trials = last ++ before ∧
      (last = [] ∨ ∃ t, last = [t] ∧ l.flattens t = true ∧
        found = some (t.accept log.trials.length)) ∧
      (∀ k lo hi, log.brackets[k]? = some (lo, hi) →
        lo.step ≠ hi.step ∧ l.Encloses reply.gradient (before.drop k) lo hi) ∧
      log.brackets.IsChain Shrinks := by
  refine ⟨fun _ _ => interpolate_inside, _, rfl, ?_⟩
  obtain ⟨l, hl⟩ : ∃ l : Line α, l = ⟨x, d, reply.value, dot reply.gradient d, params⟩ := ⟨_, rfl⟩
  rw [← hl]
  obtain ⟨found, log, calls, hrecorded, hrun, hcalls, hends⟩ :=
    exists_run_strongWolfeRecorded hl objective state
  obtain ⟨last, before, hsplit, hlast, hhistory⟩ : ∃ last before,
      log.trials = last ++ before ∧ (last = [] ∨ ∃ t, last = [t] ∧
        l.flattens t = true ∧ found = some (t.accept log.trials.length)) ∧
      l.History reply.gradient before log.brackets := by
    rcases hends with ⟨-, -, rfl⟩ | ⟨hdown, hconcludes⟩
    · exact ⟨[], [], rfl, Or.inl rfl, .nil _⟩
    · refine hconcludes.history (not_le.mp hdown.1) hstart ?_ ?_
      · exact hl ▸ hc1
      · exact hl ▸ hc2
  refine ⟨found, log, calls, last, before, hrecorded, hrun, hcalls, hsplit, hlast, ?_,
    hhistory.shrinks⟩
  intro k lo hi hk
  have hencloses := hhistory.encloses k lo hi hk
  exact ⟨hencloses.apart, hencloses⟩

/-- A function with two valleys, and its slope. -/
def twoValleys : List ℚ → Reply ℚ
  | x :: _ => ⟨x ^ 4 - 4 * x ^ 3 + x ^ 2 + 3 * x, [4 * x ^ 3 - 12 * x ^ 2 + 2 * x + 3]⟩
  | [] => ⟨0, []⟩

/-- Settings that ask for a slope close to zero, and allow few rounds. -/
def preciseSearch : WolfeSettings ℚ := ⟨1 / 10000, 1 / 1000, 10, 20, 5⟩

/-- The brackets narrow down on the second valley, until the rounds are used up. -/
theorem strongWolfeStep_brackets_twoValleys : ∃ (log : SearchLog ℚ) (before : List (Trial ℚ)),
    log.brackets.map (fun bracket => (bracket.1.step, bracket.2.step)) =
      [(12 / 7, 187 / 112), (12 / 7, 13 / 8), (12 / 7, 43 / 28), (12 / 7, 19 / 14), (12 / 7, 1),
        (2, 1)] ∧
    (∀ k lo hi, log.brackets[k]? = some (lo, hi) → lo.step ≠ hi.step ∧
      Line.Encloses ⟨[1], [1], 1, -3, preciseSearch⟩ [-3] (before.drop k) lo hi) ∧
    log.brackets.IsChain Shrinks := by
  have hsteps : ((strongWolfeRecorded [1] [1] (twoValleys [1]) (1 / 2) preciseSearch).run
      (fun (_ : Unit) point => (twoValleys point, ())) () []).1.2.brackets.map
        (fun bracket => (bracket.1.step, bracket.2.step)) =
      [(12 / 7, 187 / 112), (12 / 7, 13 / 8), (12 / 7, 43 / 28), (12 / 7, 19 / 14), (12 / 7, 1),
        (2, 1)] := by
    decide +kernel
  have hreply : twoValleys [1] = ⟨1, [-3]⟩ := by
    rw [twoValleys]
    norm_num
  have hslope : dot [-3] [1] = (-3 : ℚ) := by decide +kernel
  obtain ⟨-, l, hl, found, log, calls, last, before, hrecorded, -, -, -, -, hencloses, hshrinks⟩ :=
    strongWolfeStep_brackets [1] [1] (twoValleys [1]) (by norm_num : (0 : ℚ) < 1 / 2)
      preciseSearch (by decide +kernel) (by decide +kernel)
      (fun (_ : Unit) point => (twoValleys point, ())) ()
  rw [hrecorded] at hsteps
  rw [hreply, hslope] at hl
  subst hl
  rw [hreply] at hencloses
  exact ⟨log, before, hsteps, hencloses, hshrinks⟩

end Autodiff
