import Autodiff.Proofs.Counters

namespace Autodiff

variable {α : Type}

/-- The trials that a line search evaluated and the brackets that it narrowed, the newest first. A
bracket is given by its better end and its other end. -/
structure SearchLog (α : Type) where
  trials : List (Trial α) := []
  brackets : List (Trial α × Trial α) := []

namespace SearchLog

def tried (log : SearchLog α) (t : Trial α) : SearchLog α := { log with trials := t :: log.trials }

def narrowed (log : SearchLog α) (lo hi : Trial α) : SearchLog α :=
  { log with brackets := (lo, hi) :: log.brackets }

@[simp]
theorem trials_tried (log : SearchLog α) (t : Trial α) : (log.tried t).trials = t :: log.trials :=
  rfl

@[simp]
theorem brackets_tried (log : SearchLog α) (t : Trial α) : (log.tried t).brackets = log.brackets :=
  rfl

@[simp]
theorem trials_narrowed (log : SearchLog α) (lo hi : Trial α) :
    (log.narrowed lo hi).trials = log.trials := rfl

@[simp]
theorem brackets_narrowed (log : SearchLog α) (lo hi : Trial α) :
    (log.narrowed lo hi).brackets = (lo, hi) :: log.brackets := rfl

end SearchLog

variable [Scalar α]

namespace Line

/-- Shrinks a bracket, and adds the trials and the brackets to a log. -/
def zoomRecorded (l : Line α) : Nat → Trial α → Trial α → Nat → SearchLog α →
    Dialogue α (Option (AcceptedStep α) × SearchLog α)
  | 0, lo, hi, evaluations, log => return (settle lo evaluations, log.narrowed lo hi)
  | rounds + 1, lo, hi, evaluations, log =>
    let log := log.narrowed lo hi
    let step := interpolate lo hi
    if step == lo.step || step == hi.step then return (settle lo evaluations, log)
    else do
      let trial ← l.probe step
      let log := log.tried trial
      if !l.decreases trial || decide (lo.value ≤ trial.value) then
        l.zoomRecorded rounds lo trial (evaluations + 1) log
      else if l.flattens trial then
        return (some (trial.accept (evaluations + 1)), log)
      else if 0 ≤ trial.slope * (hi.step - lo.step) then
        l.zoomRecorded rounds trial lo (evaluations + 1) log
      else
        l.zoomRecorded rounds trial hi (evaluations + 1) log

/-- Doubles the step until it is acceptable or there is a bracket, and adds what it tries to a
log. -/
def bracketRecorded (l : Line α) : Nat → Bool → Trial α → α → Nat → SearchLog α →
    Dialogue α (Option (AcceptedStep α) × SearchLog α)
  | 0, _, _, _, _, log => return (none, log)
  | rounds + 1, first, previous, step, evaluations, log => do
    let trial ← l.probe step
    let log := log.tried trial
    if !l.decreases trial || (!first && decide (previous.value ≤ trial.value)) then
      l.zoomRecorded l.params.maxZoom previous trial (evaluations + 1) log
    else if l.flattens trial then
      return (some (trial.accept (evaluations + 1)), log)
    else if 0 ≤ trial.slope then
      l.zoomRecorded l.params.maxZoom trial previous (evaluations + 1) log
    else if l.params.maxStep ≤ step then
      return (none, log)
    else
      let wider := Scalar.min (step * Scalar.two) l.params.maxStep
      l.bracketRecorded rounds false trial wider (evaluations + 1) log

theorem map_zoomRecorded (l : Line α) (rounds : Nat) (lo hi : Trial α) (evaluations : Nat)
    (log : SearchLog α) :
    (l.zoomRecorded rounds lo hi evaluations log).map (·.1) = l.zoom rounds lo hi evaluations := by
  induction rounds generalizing lo hi evaluations log with
  | zero => rfl
  | succ rounds ih =>
    unfold zoomRecorded zoom
    dsimp only
    split
    next => rfl
    next =>
      rw [Dialogue.map_bind]
      refine congrArg (_ >>= ·) (funext fun trial => ?_)
      split
      next => exact ih _ _ _ _
      next =>
        split
        next => rfl
        next =>
          split
          next => exact ih _ _ _ _
          next => exact ih _ _ _ _

theorem map_bracketRecorded (l : Line α) (rounds : Nat) (first : Bool) (previous : Trial α)
    (step : α) (evaluations : Nat) (log : SearchLog α) :
    (l.bracketRecorded rounds first previous step evaluations log).map (·.1) =
      l.bracket rounds first previous step evaluations := by
  induction rounds generalizing first previous step evaluations log with
  | zero => rfl
  | succ rounds ih =>
    unfold bracketRecorded bracket
    rw [Dialogue.map_bind]
    refine congrArg (_ >>= ·) (funext fun trial => ?_)
    dsimp only
    split
    next => exact map_zoomRecorded _ _ _ _ _ _
    next =>
      split
      next => rfl
      next =>
        split
        next => exact map_zoomRecorded _ _ _ _ _ _
        next =>
          split
          next => rfl
          next => exact ih _ _ _ _ _

end Line

/-- Looks for a step that meets the strong Wolfe conditions, and keeps a log. -/
def strongWolfeRecorded (x d : List α) (start : Reply α) (step : α) (params : WolfeSettings α) :
    Dialogue α (Option (AcceptedStep α) × SearchLog α) :=
  let slope := dot start.gradient d
  if decide (0 ≤ slope) || Scalar.isNaN slope then return (none, {})
  else
    let line : Line α := ⟨x, d, start.value, slope, params⟩
    line.bracketRecorded params.maxBracket true ⟨0, start.value, slope, start.gradient⟩ step 0 {}

/-- Keeping a log changes neither the calls nor the outcome. -/
theorem map_strongWolfeRecorded (x d : List α) (start : Reply α) (step : α)
    (params : WolfeSettings α) :
    (strongWolfeRecorded x d start step params).map (·.1) =
      strongWolfeStep x d start step params := by
  unfold strongWolfeRecorded strongWolfeStep
  dsimp only
  split
  next => rfl
  next => exact Line.map_bracketRecorded _ _ _ _ _ _ _

namespace Line

variable {l : Line α} {gradient : List α} {start : α}

/-- The start of the line. -/
def origin (l : Line α) (gradient : List α) : Trial α := ⟨0, l.value, l.slope, gradient⟩

/-- The call that a trial came from. -/
def call (l : Line α) (t : Trial α) : Call α := ⟨along l.x l.d t.step, ⟨t.value, t.gradient⟩⟩

/-- A trial was evaluated one step along the line. -/
structure Probes (l : Line α) (step : α) (t : Trial α) : Prop where
  step : t.step = step
  slope : t.slope = dot t.gradient l.d

/-- A trial meets the first condition and is better than the one before, which does not matter at
the first trial of a search. -/
def Passes (l : Line α) (first : Bool) (previous t : Trial α) : Prop :=
  l.decreases t = true ∧ (first = false → ¬previous.value ≤ t.value)

/-- A bracket has room for a further trial. -/
def Apart (lo hi : Trial α) : Prop :=
  (interpolate lo hi == lo.step) = false ∧ (interpolate lo hi == hi.step) = false

/-- A search from a first step that has found no bracket yet, with the trial before, the step that
it tries next, and its log. -/
inductive Widens (l : Line α) (gradient : List α) (start : α) :
    Bool → Trial α → α → SearchLog α → Prop
  | begun : Widens l gradient start true (l.origin gradient) start {}
  | widened {first : Bool} {previous t : Trial α} {step : α} {log : SearchLog α} :
      Widens l gradient start first previous step log → l.Probes step t →
      l.Passes first previous t → l.flattens t = false → ¬0 ≤ t.slope →
      ¬l.params.maxStep ≤ step →
      Widens l gradient start false t (Scalar.min (step * Scalar.two) l.params.maxStep)
        (log.tried t)

/-- A search that has found a bracket, with its ends and the log. -/
inductive Narrows (l : Line α) (gradient : List α) (start : α) :
    Trial α → Trial α → SearchLog α → Prop
  | overshot {first : Bool} {previous t : Trial α} {step : α} {log : SearchLog α} :
      Widens l gradient start first previous step log → l.Probes step t →
      ¬l.Passes first previous t →
      Narrows l gradient start previous t ((log.tried t).narrowed previous t)
  | rising {first : Bool} {previous t : Trial α} {step : α} {log : SearchLog α} :
      Widens l gradient start first previous step log → l.Probes step t →
      l.Passes first previous t → l.flattens t = false → 0 ≤ t.slope →
      Narrows l gradient start t previous ((log.tried t).narrowed t previous)
  | worse {lo hi t : Trial α} {log : SearchLog α} : Narrows l gradient start lo hi log →
      Apart lo hi → l.Probes (interpolate lo hi) t → ¬l.Passes false lo t →
      Narrows l gradient start lo t ((log.tried t).narrowed lo t)
  | turned {lo hi t : Trial α} {log : SearchLog α} : Narrows l gradient start lo hi log →
      Apart lo hi → l.Probes (interpolate lo hi) t → l.Passes false lo t → l.flattens t = false →
      0 ≤ t.slope * (hi.step - lo.step) →
      Narrows l gradient start t lo ((log.tried t).narrowed t lo)
  | moved {lo hi t : Trial α} {log : SearchLog α} : Narrows l gradient start lo hi log →
      Apart lo hi → l.Probes (interpolate lo hi) t → l.Passes false lo t → l.flattens t = false →
      ¬0 ≤ t.slope * (hi.step - lo.step) →
      Narrows l gradient start t hi ((log.tried t).narrowed t hi)

/-- The ways in which a search ends. -/
inductive Concludes (l : Line α) (gradient : List α) (start : α) :
    Option (AcceptedStep α) → SearchLog α → Prop
  | flat {first : Bool} {previous t : Trial α} {step : α} {log : SearchLog α} :
      Widens l gradient start first previous step log → l.Probes step t →
      l.Passes first previous t → l.flattens t = true →
      Concludes l gradient start (some (t.accept (log.trials.length + 1))) (log.tried t)
  | flatInside {lo hi t : Trial α} {log : SearchLog α} : Narrows l gradient start lo hi log →
      Apart lo hi → l.Probes (interpolate lo hi) t → l.Passes false lo t → l.flattens t = true →
      Concludes l gradient start (some (t.accept (log.trials.length + 1))) (log.tried t)
  | settled {lo hi : Trial α} {log : SearchLog α} : Narrows l gradient start lo hi log →
      log.brackets.length = l.params.maxZoom + 1 ∨ ¬Apart lo hi →
      Concludes l gradient start (settle lo log.trials.length) log
  | spent {first : Bool} {previous : Trial α} {step : α} {log : SearchLog α} :
      Widens l gradient start first previous step log →
      log.trials.length = l.params.maxBracket → Concludes l gradient start none log
  | limited {first : Bool} {previous t : Trial α} {step : α} {log : SearchLog α} :
      Widens l gradient start first previous step log → l.Probes step t →
      l.Passes first previous t → l.flattens t = false → ¬0 ≤ t.slope →
      l.params.maxStep ≤ step → Concludes l gradient start none (log.tried t)

variable {admits : List α → Reply α → Prop} {calls : List (Call α)}

/-- A search has come to its end, and each of its calls belongs to one of its trials. -/
def Completed (l : Line α) (gradient : List α) (start : α) (calls : List (Call α))
    (outcome : Option (AcceptedStep α) × SearchLog α) (calls' : List (Call α)) : Prop :=
  l.Concludes gradient start outcome.1 outcome.2 ∧
    calls' = outcome.2.trials.map l.call ++ calls

/-- What is left to do after a trial was evaluated. -/
theorem probe_completes {outcome : Trial α → Dialogue α (Option (AcceptedStep α) × SearchLog α)}
    (step : α) (log : SearchLog α) (h : ∀ t, l.Probes step t → (outcome t).Ensures admits
      (l.Completed gradient start calls) ((log.tried t).trials.map l.call ++ calls)) :
    (l.probe step >>= outcome).Ensures admits (l.Completed gradient start calls)
      (log.trials.map l.call ++ calls) := by
  rw [Dialogue.ensures_bind]
  exact probe_ensures _ fun reply _ => h ⟨step, reply.value, dot reply.gradient l.d, reply.gradient⟩
    ⟨rfl, rfl⟩

theorem zoomRecorded_completes (rounds : Nat) {lo hi : Trial α} (log : SearchLog α)
    (h : l.Narrows gradient start lo hi (log.narrowed lo hi))
    (hrounds : rounds + log.brackets.length = l.params.maxZoom) :
    (l.zoomRecorded rounds lo hi log.trials.length log).Ensures admits
      (l.Completed gradient start calls) (log.trials.map l.call ++ calls) := by
  induction rounds generalizing lo hi log with
  | zero =>
    have hspent : (log.narrowed lo hi).brackets.length = l.params.maxZoom + 1 := by
      rw [SearchLog.brackets_narrowed, List.length_cons]
      omega
    exact ⟨.settled h (Or.inl hspent), rfl⟩
  | succ rounds ih =>
    have hrest : rounds + (log.narrowed lo hi).brackets.length = l.params.maxZoom := by
      rw [SearchLog.brackets_narrowed, List.length_cons]
      omega
    unfold zoomRecorded
    dsimp only
    split
    next hmet =>
      have hnot : ¬Apart lo hi := by
        rintro ⟨hlo, hhi⟩
        simp [hlo, hhi] at hmet
      exact ⟨.settled h (Or.inr hnot), rfl⟩
    next hmet =>
      have hapart : Apart lo hi := by simpa [Apart] using hmet
      refine probe_completes _ (log.narrowed lo hi) fun t ht => ?_
      split
      next hworse =>
        have hfails : ¬l.Passes false lo t := by
          rintro ⟨hdec, hless⟩
          simp [hdec, hless rfl] at hworse
        exact ih ((log.narrowed lo hi).tried t) (.worse h hapart ht hfails) hrest
      next hbetter =>
        have hpasses : l.Passes false lo t := by simpa [Passes] using hbetter
        split
        next hflat => exact ⟨.flatInside h hapart ht hpasses hflat, rfl⟩
        next hsteep =>
          rw [Bool.not_eq_true] at hsteep
          split
          next hturn =>
            exact ih ((log.narrowed lo hi).tried t)
              (.turned h hapart ht hpasses hsteep hturn) hrest
          next hturn =>
            exact ih ((log.narrowed lo hi).tried t)
              (.moved h hapart ht hpasses hsteep hturn) hrest

theorem Widens.brackets {first : Bool} {previous : Trial α} {step : α} {log : SearchLog α}
    (h : l.Widens gradient start first previous step log) : log.brackets = [] := by
  induction h with
  | begun => rfl
  | widened _ _ _ _ _ _ ih => exact ih

theorem bracketRecorded_completes (rounds : Nat) {first : Bool} {previous : Trial α} {step : α}
    (log : SearchLog α) (h : l.Widens gradient start first previous step log)
    (hrounds : rounds + log.trials.length = l.params.maxBracket) :
    (l.bracketRecorded rounds first previous step log.trials.length log).Ensures admits
      (l.Completed gradient start calls) (log.trials.map l.call ++ calls) := by
  induction rounds generalizing first previous step log with
  | zero => exact ⟨.spent h ((Nat.zero_add _).symm.trans hrounds), rfl⟩
  | succ rounds ih =>
    have hbrackets : l.params.maxZoom + log.brackets.length = l.params.maxZoom := by
      rw [h.brackets]
      rfl
    unfold bracketRecorded
    refine probe_completes _ log fun t ht => ?_
    dsimp only
    split
    next hover =>
      have hfails : ¬l.Passes first previous t := by
        rintro ⟨hdec, hless⟩
        cases first with
        | true => simp [hdec] at hover
        | false => simp [hdec, hless rfl] at hover
      exact zoomRecorded_completes _ (log.tried t) (.overshot h ht hfails) hbrackets
    next hbetter =>
      have hpasses : l.Passes first previous t := by
        cases first with
        | true => simpa [Passes] using hbetter
        | false => simpa [Passes] using hbetter
      split
      next hflat => exact ⟨.flat h ht hpasses hflat, rfl⟩
      next hsteep =>
        rw [Bool.not_eq_true] at hsteep
        split
        next hrising =>
          exact zoomRecorded_completes _ (log.tried t) (.rising h ht hpasses hsteep hrising)
            hbrackets
        next hfalling =>
          split
          next hmax => exact ⟨.limited h ht hpasses hsteep hfalling hmax, rfl⟩
          next hmax =>
            refine ih (log.tried t) (.widened h ht hpasses hsteep hfalling hmax) ?_
            rw [SearchLog.trials_tried, List.length_cons]
            omega

theorem Narrows.newest {lo hi : Trial α} {log : SearchLog α}
    (h : l.Narrows gradient start lo hi log) : ∃ older, log.brackets = (lo, hi) :: older := by
  cases h with
  | overshot => exact ⟨_, rfl⟩
  | rising => exact ⟨_, rfl⟩
  | worse => exact ⟨_, rfl⟩
  | turned => exact ⟨_, rfl⟩
  | moved => exact ⟨_, rfl⟩

section Range

variable {ends tried : α → Prop} {lo hi previous t : Trial α} {step : α} {first : Bool}
  {log : SearchLog α}

omit [Scalar α] in
theorem tried_cons (ht : tried t.step) (hlog : ∀ t ∈ log.trials, tried t.step) :
    ∀ u ∈ (log.tried t).trials, tried u.step := by
  intro u hu
  rcases List.mem_cons.mp hu with rfl | hu
  · exact ht
  · exact hlog u hu

theorem Widens.range (hrange : l.Range ends tried) (hstart : tried start)
    (h : l.Widens gradient start first previous step log) :
    tried step ∧ ends previous.step ∧ ∀ t ∈ log.trials, tried t.step := by
  induction h with
  | begun => exact ⟨hstart, hrange.start, nofun⟩
  | widened _ ht hpasses _ _ hmax ih =>
    obtain ⟨hstep, -, hlog⟩ := ih
    rw [← ht.step] at hstep hmax ⊢
    exact ⟨hrange.widen _ hstep hpasses.1 hmax, hrange.tried_ends _ hstep, tried_cons hstep hlog⟩

theorem Narrows.range (hrange : l.Range ends tried) (hstart : tried start)
    (h : l.Narrows gradient start lo hi log) :
    ends lo.step ∧ ends hi.step ∧ ∀ t ∈ log.trials, tried t.step := by
  have hinside {lo hi t : Trial α} (hlo : ends lo.step) (hhi : ends hi.step)
      (hapart : Apart lo hi) (ht : l.Probes (interpolate lo hi) t) : tried t.step := by
    rw [ht.step]
    exact hrange.interpolate lo hi hlo hhi hapart.1 hapart.2
  induction h with
  | overshot hwidens ht _ =>
    obtain ⟨hstep, hprevious, hlog⟩ := hwidens.range hrange hstart
    rw [← ht.step] at hstep
    exact ⟨hprevious, hrange.tried_ends _ hstep, tried_cons hstep hlog⟩
  | rising hwidens ht _ _ _ =>
    obtain ⟨hstep, hprevious, hlog⟩ := hwidens.range hrange hstart
    rw [← ht.step] at hstep
    exact ⟨hrange.tried_ends _ hstep, hprevious, tried_cons hstep hlog⟩
  | worse _ hapart ht _ ih =>
    have hstep := hinside ih.1 ih.2.1 hapart ht
    exact ⟨ih.1, hrange.tried_ends _ hstep, tried_cons hstep ih.2.2⟩
  | turned _ hapart ht _ _ _ ih =>
    have hstep := hinside ih.1 ih.2.1 hapart ht
    exact ⟨hrange.tried_ends _ hstep, ih.1, tried_cons hstep ih.2.2⟩
  | moved _ hapart ht _ _ _ ih =>
    have hstep := hinside ih.1 ih.2.1 hapart ht
    exact ⟨hrange.tried_ends _ hstep, ih.2.1, tried_cons hstep ih.2.2⟩

theorem Concludes.range (hrange : l.Range ends tried) (hstart : tried start)
    {found : Option (AcceptedStep α)} (h : l.Concludes gradient start found log) :
    ∀ t ∈ log.trials, tried t.step := by
  cases h with
  | flat hwidens ht _ _ =>
    obtain ⟨hstep, -, hlog⟩ := hwidens.range hrange hstart
    rw [← ht.step] at hstep
    exact tried_cons hstep hlog
  | flatInside hnarrows hapart ht _ _ =>
    obtain ⟨hlo, hhi, hlog⟩ := hnarrows.range hrange hstart
    have hstep := hrange.interpolate _ _ hlo hhi hapart.1 hapart.2
    rw [← ht.step] at hstep
    exact tried_cons hstep hlog
  | settled hnarrows _ => exact (hnarrows.range hrange hstart).2.2
  | spent hwidens _ => exact (hwidens.range hrange hstart).2.2
  | limited hwidens ht _ _ _ _ =>
    obtain ⟨hstep, -, hlog⟩ := hwidens.range hrange hstart
    rw [← ht.step] at hstep
    exact tried_cons hstep hlog

end Range

/-- A search is over. It was given up at once if the line does not lead downhill, and otherwise came
to one of its ends. -/
def Over (l : Line α) (gradient : List α) (start : α) (calls : List (Call α))
    (outcome : Option (AcceptedStep α) × SearchLog α) (calls' : List (Call α)) : Prop :=
  (¬l.Downhill ∧ outcome = (none, {}) ∧ calls' = calls) ∨
    (l.Downhill ∧ l.Completed gradient start calls outcome calls')

end Line

theorem strongWolfeRecorded_over {x d : List α} {reply : Reply α} {start : α}
    {params : WolfeSettings α} {l : Line α}
    (hl : l = ⟨x, d, reply.value, dot reply.gradient d, params⟩)
    {admits : List α → Reply α → Prop} {calls : List (Call α)} :
    (strongWolfeRecorded x d reply start params).Ensures admits
      (l.Over reply.gradient start calls) calls := by
  subst hl
  unfold strongWolfeRecorded
  dsimp only
  split
  next hup => exact Or.inl ⟨fun hdown => (Line.downhill_iff _).mp hdown hup, rfl, rfl⟩
  next hup =>
    have hdown := (Line.downhill_iff ⟨x, d, reply.value, dot reply.gradient d, params⟩).mpr hup
    exact (Line.bracketRecorded_completes _ {} .begun rfl).mono
      fun outcome calls' h _ _ => Or.inr ⟨hdown, h⟩

/-- A run, recorded or not, and the end that it comes to. Its calls are those of the trials in the
log. -/
theorem exists_run_strongWolfeRecorded {σ : Type} {x d : List α} {reply : Reply α} {start : α}
    {params : WolfeSettings α} {l : Line α}
    (hl : l = ⟨x, d, reply.value, dot reply.gradient d, params⟩)
    (objective : σ → List α → Reply α × σ) (state : σ) :
    ∃ found log calls, (strongWolfeRecorded x d reply start params).run objective state [] =
        ((found, log), calls) ∧
      (strongWolfeStep x d reply start params).run objective state [] = (found, calls) ∧
      calls = log.trials.map l.call ∧
      ((¬l.Downhill ∧ found = none ∧ log = {}) ∨
        (l.Downhill ∧ l.Concludes reply.gradient start found log)) := by
  obtain ⟨⟨⟨found, log⟩, calls⟩, heq⟩ : ∃ outcome,
    (strongWolfeRecorded x d reply start params).run objective state [] = outcome := ⟨_, rfl⟩
  have hensures : (strongWolfeRecorded x d reply start params).Ensures (fun _ _ => True)
      (l.Over reply.gradient start []) [] := strongWolfeRecorded_over hl
  have hover : l.Over reply.gradient start []
      ((strongWolfeRecorded x d reply start params).run objective state []).1
      ((strongWolfeRecorded x d reply start params).run objective state []).2 :=
    hensures.run (fun _ _ => trivial) state
  refine ⟨found, log, calls, heq, ?_, ?_⟩
  · rw [← map_strongWolfeRecorded, Dialogue.run_map, heq]
  · rw [heq] at hover
    rcases hover with ⟨hdown, houtcome, rfl⟩ | ⟨hdown, hconcludes, hcalls⟩
    · obtain ⟨rfl, rfl⟩ := Prod.mk.inj houtcome
      exact ⟨rfl, Or.inl ⟨hdown, rfl, rfl⟩⟩
    · rw [List.append_nil] at hcalls
      exact ⟨hcalls, Or.inr ⟨hdown, hconcludes⟩⟩

end Autodiff
