import Autodiff.Proofs.SuccessfulSearches

namespace Autodiff

open Scalar (IsDefined)

variable {α : Type} [Scalar α]

namespace Line

variable {l : Line α} {gradient : List α} {start step : α} {first : Bool} {previous t : Trial α}
  {trials : List (Trial α)} {log : SearchLog α}

/-- Trials of which each meets the first condition, but not the second one, and is below the one
before. The objective falls further at all of them. -/
structure Descends (l : Line α) (trials : List (Trial α)) : Prop where
  decreases : ∀ t ∈ trials, l.decreases t = true
  steep : ∀ t ∈ trials, l.flattens t = false
  falling : ∀ t ∈ trials, ¬0 ≤ t.slope
  lower : trials.IsChain fun newer older => newer.value < older.value

theorem Descends.cons (h : l.Descends trials) (hdec : l.decreases t = true)
    (hsteep : l.flattens t = false) (hfalling : ¬0 ≤ t.slope)
    (hlower : ∀ older ∈ trials.head?, t.value < older.value) : l.Descends (t :: trials) := by
  refine ⟨?_, ?_, ?_, List.isChain_cons.mpr ⟨hlower, h.lower⟩⟩
  · exact List.forall_mem_cons.mpr ⟨hdec, h.decreases⟩
  · exact List.forall_mem_cons.mpr ⟨hsteep, h.steep⟩
  · exact List.forall_mem_cons.mpr ⟨hfalling, h.falling⟩

/-- A search ran out of its doublings or came to the largest step, and had not found a bracket until
then. -/
structure RanOut (l : Line α) (log : SearchLog α) : Prop extends l.Descends log.trials where
  unbracketed : log.brackets = []
  spent : log.trials.length = l.params.maxBracket ∨
    ∃ t ∈ log.trials.head?, l.params.maxStep ≤ t.step

theorem Widens.head (h : l.Widens gradient start first previous step log) :
    (first = true ∧ log.trials = []) ∨ (first = false ∧ log.trials.head? = some previous) := by
  cases h with
  | begun => exact Or.inl ⟨rfl, rfl⟩
  | widened => exact Or.inr ⟨rfl, rfl⟩

/-- A search that ran out gives up, although all of its trials meet the first condition. -/
theorem Concludes.none_of_ranOut {found : Option (AcceptedStep α)}
    (h : l.Concludes gradient start found log) (hout : l.RanOut log) : found = none := by
  cases h with
  | flat _ _ _ hflat =>
    exact absurd hflat (Bool.eq_false_iff.mp (hout.steep _ List.mem_cons_self))
  | flatInside _ _ _ _ hflat =>
    exact absurd hflat (Bool.eq_false_iff.mp (hout.steep _ List.mem_cons_self))
  | settled hnarrows _ =>
    obtain ⟨older, hbrackets⟩ := hnarrows.newest
    exact absurd (hbrackets.symm.trans hout.unbracketed) (List.cons_ne_nil _ _)
  | spent => rfl
  | limited => rfl

section Rounded

variable [RoundedScalar α]

/-- A further trial of a search without a bracket. -/
theorem Descends.widened (h : l.Descends log.trials)
    (hwidens : l.Widens gradient start first previous step log)
    (hpasses : l.Passes first previous t) (hsteep : l.flattens t = false)
    (hfalling : ¬0 ≤ t.slope) : l.Descends (log.tried t).trials := by
  refine h.cons hpasses.1 hsteep hfalling fun older holder => ?_
  rcases hwidens.head with ⟨-, hnone⟩ | ⟨hfirst, hlast⟩
  · rw [hnone] at holder
    cases holder
  · obtain rfl : previous = older := Option.some.inj (hlast.symm.trans holder)
    have hprevious := h.decreases previous (List.mem_of_mem_head? hlast)
    exact RoundedScalar.lt_of_not_le (defined_value hpasses.1).1 (defined_value hprevious).1
      (hpasses.2 hfirst)

theorem Widens.descends (h : l.Widens gradient start first previous step log) :
    l.Descends log.trials := by
  induction h with
  | begun => exact ⟨nofun, nofun, nofun, .nil⟩
  | widened hwidens _ hpasses hsteep hfalling _ ih =>
    exact ih.widened hwidens hpasses hsteep hfalling

end Rounded

variable [RangedScalar α]

/-- A search that gives up ran out, or found nothing below the start of the line. -/
theorem Concludes.gives_up (h : l.Concludes gradient start none log) (hstart : 0 < start) :
    l.RanOut log ∨ (log.brackets ≠ [] ∧
      ∀ t ∈ log.trials, l.decreases t = true → l.value ≤ t.value) := by
  generalize hfound : (none : Option (AcceptedStep α)) = found at h
  cases h with
  | flat => cases hfound
  | flatInside => cases hfound
  | @settled lo hi log hnarrows hstop =>
    obtain ⟨older, hbrackets⟩ := hnarrows.newest
    refine Or.inr ⟨hbrackets ▸ List.cons_ne_nil _ _, ?_⟩
    have hlo : ¬0 < lo.step := by
      intro hpos
      rw [settle, if_pos hpos] at hfound
      cases hfound
    rcases hnarrows.best.reached with rfl | ⟨hmem, hdec, -⟩
    · exact hnarrows.best.least
    · -- A better end that is a trial has a positive step, and is not given up.
      have htried := ((Concludes.settled hnarrows hstop).range (range_limited l hstart)
        ⟨fun _ => hstart, fun hs _ => Scalar.le_max_left hs⟩ lo hmem).1
      exact absurd (htried (defined_of_decreases hdec)) hlo
  | spent hwidens hlength =>
    exact Or.inl ⟨hwidens.descends, hwidens.brackets, Or.inl hlength⟩
  | @limited _ _ t _ _ hwidens ht hpasses hsteep hfalling hmax =>
    exact Or.inl ⟨hwidens.descends.widened hwidens hpasses hsteep hfalling, hwidens.brackets,
      Or.inr ⟨t, rfl, ht.step ▸ hmax⟩⟩

end Line

/-- A search that leads downhill gives up without having found a step to a lower value, except if it
ran out before there was a bracket. All of its trials are lost then. -/
theorem strongWolfeStep_gives_up {σ : Type} [RangedScalar α] (x d : List α) (reply : Reply α)
    {start : α} (hstart : 0 < start) (hslope : dot reply.gradient d < 0) (params : WolfeSettings α)
    (objective : σ → List α → Reply α × σ) (state : σ) :
    ∃ l : Line α, l = ⟨x, d, reply.value, dot reply.gradient d, params⟩ ∧
    ∃ found log calls,
      (strongWolfeRecorded x d reply start params).run objective state [] =
        ((found, log), calls) ∧
      (strongWolfeStep x d reply start params).run objective state [] = (found, calls) ∧
      calls = log.trials.map l.call ∧
      (l.RanOut log → found = none) ∧
      (found = none → l.RanOut log ∨ (log.brackets ≠ [] ∧
        ∀ t ∈ log.trials, l.decreases t = true → l.value ≤ t.value)) := by
  refine ⟨_, rfl, ?_⟩
  obtain ⟨l, hl⟩ : ∃ l : Line α, l = ⟨x, d, reply.value, dot reply.gradient d, params⟩ := ⟨_, rfl⟩
  rw [← hl]
  obtain ⟨found, log, calls, hrecorded, hrun, hcalls, hends⟩ :=
    exists_run_strongWolfeRecorded hl objective state
  refine ⟨found, log, calls, hrecorded, hrun, hcalls, ?_⟩
  have hneg : l.slope < 0 := hl ▸ hslope
  have hdown : l.Downhill := by
    have hdefined := ((RoundedScalar.lt_iff _ _).mp hneg).1
    refine ⟨fun hle => ?_, Scalar.isNaN_of_defined hdefined⟩
    exact RoundedScalar.not_lt_of_le hle hneg
  rcases hends with ⟨hup, -⟩ | ⟨-, hconcludes⟩
  · exact absurd hdown hup
  · refine ⟨hconcludes.none_of_ranOut, ?_⟩
    rintro rfl
    exact hconcludes.gives_up hstart

/-- The negative of the first coordinate, which falls without end. -/
def slide : List Float → Reply Float
  | x :: _ => ⟨-x, [-1]⟩
  | [] => ⟨Scalar.nan, []⟩

theorem strongWolfeStep_gives_up_slide : ∃ (log : SearchLog Float) (calls : List (Call Float)),
    (strongWolfeStep [0] [1] (slide [0]) 1 WolfeSettings.double).run
      (fun (_ : Unit) point => (slide point, ())) () [] = (none, calls) ∧ log.trials.length = 20 ∧
    Line.RanOut ⟨[0], [1], (slide [0]).value, dot (slide [0]).gradient [1], .double⟩ log := by
  have hrun : ((strongWolfeRecorded [0] [1] (slide [0]) 1 WolfeSettings.double).run
      (fun (_ : Unit) point => (slide point, ())) () []).1.1.isNone = true := by
    decide +kernel
  have hlog : ((strongWolfeRecorded [0] [1] (slide [0]) 1 WolfeSettings.double).run
      (fun (_ : Unit) point => (slide point, ())) () []).1.2.trials.length = 20 ∧
      ((strongWolfeRecorded [0] [1] (slide [0]) 1 WolfeSettings.double).run
        (fun (_ : Unit) point => (slide point, ())) () []).1.2.brackets.isEmpty = true := by
    decide +kernel
  obtain ⟨l, hl, found, log, calls, hrecorded, hplain, -, -, hnone⟩ :=
    strongWolfeStep_gives_up [0] [1] (slide [0]) (by decide +kernel : (0 : Float) < 1)
      (by decide +kernel) WolfeSettings.double (fun (_ : Unit) point => (slide point, ())) ()
  rw [hrecorded] at hrun hlog
  obtain rfl := Option.isNone_iff_eq_none.mp hrun
  refine ⟨log, calls, hplain, hlog.1, ?_⟩
  subst hl
  exact (hnone rfl).resolve_right fun h => h.1 (List.isEmpty_iff.mp hlog.2)

/-- All evaluations of this search meet the first condition, and it settles on none of them. -/
theorem strongWolfeStep_loses_decreases :
    (dot (slide [0]).gradient [1] < 0 ∧ (0 : Float) < 1) ∧
    ((strongWolfeStep [0] [1] (slide [0]) 1 WolfeSettings.double).run
      (fun (_ : Unit) point => (slide point, ())) () []).1.isNone = true ∧
    ((strongWolfeRecorded [0] [1] (slide [0]) 1 WolfeSettings.double).run
      (fun (_ : Unit) point => (slide point, ())) () []).1.2.trials.all
        (Line.decreases ⟨[0], [1], (slide [0]).value, dot (slide [0]).gradient [1], .double⟩) =
          true ∧
    ((strongWolfeRecorded [0] [1] (slide [0]) 1 WolfeSettings.double).run
      (fun (_ : Unit) point => (slide point, ())) () []).1.2.trials.length = 20 := by
  decide +kernel

end Autodiff
