import Autodiff.Proofs.SolverSequences

namespace Autodiff

variable {α : Type}

namespace Iterates

/-- A sequence comes to its end, with the problems that it records on the way: either it gives some
iterates, all of `n` coordinates and only the last of them final, or it is broken by a fault. -/
inductive ComesTo (n : Nat) : Iterates α → Except Fault (List (Iterate α)) → List (Problem α) → Prop
  | last {it : Iterate α} {rest : Unit → Iterates α} (hx : it.x.length = n)
      (hs : it.status ≠ .inProgress) (h : rest () = .done) : ComesTo n (.yield it rest) (.ok [it]) []
  | more {it : Iterate α} {rest : Unit → Iterates α} {outcome : Except Fault (List (Iterate α))}
      {recorded : List (Problem α)} (hs : it.status = .inProgress) (hx : it.x.length = n)
      (h : ComesTo n (rest ()) outcome recorded) :
      ComesTo n (.yield it rest) (outcome.map (it :: ·)) recorded
  | record {p : Problem α} {rest : Unit → Iterates α} {outcome : Except Fault (List (Iterate α))}
      {recorded : List (Problem α)} (h : ComesTo n (rest ()) outcome recorded) :
      ComesTo n (.record p rest) outcome (p :: recorded)
  | broken (cause : Fault) : ComesTo n (.broken cause) (.error cause) []

theorem yield_congr {it : Iterate α} {rest rest' : Unit → Iterates α} (h : rest () = rest' ()) :
    Iterates.yield it rest = .yield it rest' :=
  congrArg _ (funext fun _ => h)

theorem record_congr {p : Problem α} {rest rest' : Unit → Iterates α} (h : rest () = rest' ()) :
    Iterates.record p rest = .record p rest' :=
  congrArg _ (funext fun _ => h)

variable {n : Nat} {its : Iterates α} {outcome : Except Fault (List (Iterate α))}
  {recorded : List (Problem α)}

theorem ComesTo.collect_eq (h : its.ComesTo n outcome recorded) :
    its.collect = (outcome, recorded) := by
  induction h with
  | last _ _ h => simp only [collect, h, Except.map]
  | more _ _ _ ih => simp only [collect, ih]
  | record _ ih => simp only [collect, ih]
  | broken cause => rfl

/-- Of what a sequence gives when it comes to its end, there is a last iterate, and all points have
`n` coordinates. -/
theorem ComesTo.exists_final (h : its.ComesTo n outcome recorded) :
    ∀ list, outcome = .ok list → ∃ final, list.getLast? = some final ∧ final.x.length = n := by
  induction h with
  | last hx _ _ =>
    rintro list hlist
    obtain rfl := Except.ok.inj hlist
    exact ⟨_, rfl, hx⟩
  | @more it rest outcome recorded _ hx h ih =>
    intro list hlist
    cases outcome with
    | error cause => cases hlist
    | ok later =>
      obtain rfl := Except.ok.inj hlist
      obtain ⟨final, hfinal, hlength⟩ := ih later rfl
      have hne : later ≠ [] := by rintro rfl; cases hfinal
      exact ⟨final, by rwa [List.getLast?_cons_of_ne_nil hne], hlength⟩
  | record _ ih => exact ih
  | broken cause => exact nofun

theorem ComesTo.ne_nil (h : its.ComesTo n outcome recorded) :
    ∀ list, outcome = .ok list → list ≠ [] := by
  rintro list hlist rfl
  obtain ⟨final, hfinal, -⟩ := h.exists_final [] hlist
  cases hfinal

theorem ComesTo.recordAll (h : its.ComesTo n outcome recorded) (problems : List (Problem α)) :
    (recordAll problems its).ComesTo n outcome (problems ++ recorded) := by
  induction problems with
  | nil => exact h
  | cons p problems ih => exact .record ih

end Iterates

namespace Multistage

open Iterates (ComesTo Ended WellFormed record_congr yield_congr)

/-- The iterates of several stages as one sequence: numbered from `k` on, and none but the last of
them final. -/
def joined (k : Nat) (all : List (Iterate α)) : List (Iterate α) :=
  all.mapIdx fun i it =>
    { it with
      iteration := k + i
      status := if i + 1 < all.length then .inProgress else it.status }

theorem joined_singleton (k : Nat) (it : Iterate α) :
    joined k [it] = [{ it with iteration := k }] := by
  simp [joined]

theorem joined_cons (k : Nat) (it : Iterate α) {later : List (Iterate α)} (h : later ≠ []) :
    joined k (it :: later) =
      { it with iteration := k, status := .inProgress } :: joined (k + 1) later := by
  have hpos : 0 < later.length := List.length_pos_iff.mpr h
  rw [joined, List.mapIdx_cons, joined]
  refine congrArg₂ _ ?_ (congrArg (fun f => later.mapIdx f) (funext fun i => funext fun it' => ?_))
  · simp [hpos]
  · have hnumber : k + (i + 1) = k + 1 + i := by omega
    simp only [List.length_cons, Nat.add_lt_add_iff_right, hnumber]

/-- What comes of a sequence that is followed to its end. -/
abbrev Collected (α : Type) := Except Fault (List (Iterate α)) × List (Problem α)

/-- What comes of a stage and of those run after it. Nothing is run after a stage that breaks. -/
def followedBy (stage : Collected α) (later : List (Iterate α) → Collected α) : Collected α :=
  match stage with
  | (.error cause, recorded) => (.error cause, recorded)
  | (.ok list, recorded) => ((later list).1.map (list ++ ·), recorded ++ (later list).2)

/-- What comes of stages that are run one after another from a point: the iterates of all of them,
or the fault that breaks one of them, and the problems recorded. Each stage runs to its end, and the
next one starts where its last iterate is. The first stage that does not start is the end of it. -/
def runStages (p : Problem α) : List (Solver α) → List α → Collected α
  | [], _ => (.ok [], [])
  | stage :: rest, x =>
    let started := stage.start { p with start := x }
    match started.outcome with
    | .error (.term (.fault cause)) => (.error cause, started.recorded)
    | .error _ => (.ok [], started.recorded)
    | .ok its =>
      let all := followedBy its.collect fun list =>
        runStages p rest ((list.getLast?.map Iterate.x).getD x)
      (all.1, started.recorded ++ all.2)

/-- What a launch adds to the sequence: nothing if the stage does not start, and otherwise all that
is made of its sequence. -/
inductive Launch.Adds (n : Nat) (continued : Iterates α → Nat → Iterates α) :
    Launch α → Collected α → Prop
  | refused (recorded : List (Problem α)) : Adds n continued ⟨recorded, .ok none⟩ (.ok [], recorded)
  | broken (recorded : List (Problem α)) (cause : Fault) :
      Adds n continued ⟨recorded, .error cause⟩ (.error cause, recorded)
  | started (recorded : List (Problem α)) {its : Iterates α} {added : Collected α}
      (h : ∀ k, (continued its k).ComesTo n (added.1.map (joined k)) added.2)
      (hne : ∀ list, added.1 = .ok list → list ≠ []) :
      Adds n continued ⟨recorded, .ok (some its)⟩ (added.1, recorded ++ added.2)

variable {n : Nat} {its : Iterates α} {outcome : Except Fault (List (Iterate α))}
  {recorded : List (Problem α)} {breaks : Fault → Prop}

/-- An iterate in front of others that are numbered and joined after it. -/
theorem map_joined_cons (k : Nat) (it : Iterate α)
    (hne : ∀ list, outcome = .ok list → list ≠ []) :
    (outcome.map (joined (k + 1))).map ({ it with iteration := k, status := .inProgress } :: ·) =
      (outcome.map (it :: ·)).map (joined k) := by
  cases outcome with
  | error cause => rfl
  | ok list => exact congrArg Except.ok (joined_cons k it (hne list rfl)).symm

theorem followedBy_nothing (stage : Collected α) :
    followedBy stage (fun _ => (.ok [], [])) = stage := by
  obtain ⟨outcome, recorded⟩ := stage
  cases outcome with
  | error cause => rfl
  | ok list => simp only [followedBy, Except.map, List.append_nil]

theorem followedBy_cons (it : Iterate α) (later : List (Iterate α) → Collected α) :
    followedBy (outcome.map (it :: ·), recorded) later =
      ((followedBy (outcome, recorded) fun list => later (it :: list)).1.map (it :: ·),
        (followedBy (outcome, recorded) fun list => later (it :: list)).2) := by
  cases outcome with
  | error cause => rfl
  | ok list =>
    simp only [followedBy, Except.map]
    cases (later (it :: list)).1 with
    | error cause => rfl
    | ok list' => rfl

theorem followedBy_record (q : Problem α) (later : List (Iterate α) → Collected α) :
    followedBy (outcome, q :: recorded) later =
      ((followedBy (outcome, recorded) later).1, q :: (followedBy (outcome, recorded) later).2) := by
  cases outcome with
  | error cause => rfl
  | ok list => rfl

theorem followedBy_ne_nil (hne : ∀ list, outcome = .ok list → list ≠ [])
    {later : List (Iterate α) → Collected α} :
    ∀ list, (followedBy (outcome, recorded) later).1 = .ok list → list ≠ [] := by
  intro all hall
  cases outcome with
  | error cause => cases hall
  | ok list =>
    simp only [followedBy] at hall
    cases hlater : (later list).1 with
    | error cause =>
      rw [hlater] at hall
      cases hall
    | ok list' =>
      rw [hlater] at hall
      obtain rfl := Except.ok.inj hall
      exact List.append_ne_nil_of_left_ne_nil (hne list rfl) _

theorem comesTo_renumber (h : its.ComesTo n outcome recorded) (k : Nat) :
    (renumber its k).ComesTo n (outcome.map (joined k)) recorded := by
  induction h generalizing k with
  | @last it rest hx hs h =>
    rw [Except.map, joined_singleton]
    refine .last hx hs ?_
    rw [h]
    rfl
  | @more it rest outcome recorded hs hx h ih =>
    rw [← map_joined_cons k it h.ne_nil, ← hs]
    exact .more hs hx (ih (k + 1))
  | record _ ih => exact .record (ih k)
  | broken cause => exact .broken cause

/-- A stage, and what the launch from its last point adds, make up one sequence. -/
theorem comesTo_follow {start : List α} {next : List α → Launch α}
    {continued : Iterates α → Nat → Iterates α} {later : List (Iterate α) → Collected α}
    (h : its.ComesTo n outcome recorded)
    (hadds : ∀ list final, outcome = .ok list → list.getLast? = some final →
      (next final.x).Adds n continued (later list))
    (last : Option (List α)) (k : Nat) :
    (follow start next continued its last k).ComesTo n
      ((followedBy (outcome, recorded) later).1.map (joined k))
      (followedBy (outcome, recorded) later).2 := by
  -- What comes later depends on all that the stage has given, so it changes along the induction.
  induction h generalizing later last k with
  | @last it rest hx hs h =>
    have hadded := hadds [it] it rfl rfl
    rw [follow, if_neg hs, followedBy]
    generalize next it.x = launched at hadded
    generalize later [it] = added at hadded
    cases hadded with
    | refused problems =>
      have hend : (Iterates.yield { it with iteration := k } fun _ =>
          renumber (rest ()) (k + 1)).ComesTo n (.ok [{ it with iteration := k }]) [] := by
        refine .last hx hs ?_
        rw [h]
        rfl
      simpa [joined_singleton, Except.map] using hend.recordAll problems
    | broken problems cause => simpa [Except.map] using (ComesTo.broken cause).recordAll problems
    | @started problems its' added h' hne =>
      have hmore : (Iterates.yield { it with iteration := k, status := .inProgress } fun _ =>
          continued its' (k + 1)).ComesTo n ((added.1.map (it :: ·)).map (joined k)) added.2 := by
        rw [← map_joined_cons k it hne]
        exact .more rfl hx (h' (k + 1))
      exact hmore.recordAll problems
  | @more it rest outcome recorded hs hx h ih =>
    rw [follow, if_pos hs, followedBy_cons, ← map_joined_cons k it (followedBy_ne_nil h.ne_nil),
      ← hs]
    refine .more hs hx (ih (fun list final hlist hfinal => ?_) _ _)
    refine hadds (it :: list) final (by rw [hlist]; rfl) ?_
    rwa [List.getLast?_cons_of_ne_nil (h.ne_nil list hlist)]
  | record _ ih =>
    rw [followedBy_record]
    exact .record (ih hadds _ _)
  | broken cause => exact .broken cause

theorem renumber_ended (h : its.Ended) (k : Nat) : renumber its k = its := by
  induction h with
  | done => rfl
  | record _ ih => exact record_congr ih

theorem renumber_wellFormed {k : Nat} (h : its.WellFormed breaks k) : renumber its k = its := by
  induction h with
  | @last k it rest hk hs h =>
    subst hk
    exact yield_congr (renumber_ended h _)
  | @more k it rest hk hs h ih =>
    subst hk
    exact yield_congr ih
  | record _ ih => exact record_congr ih
  | broken _ => rfl

theorem renumber_recordAll (problems : List (Problem α)) (its : Iterates α) (k : Nat) :
    renumber (.recordAll problems its) k = .recordAll problems (renumber its k) := by
  induction problems with
  | nil => rfl
  | cons p problems ih => exact record_congr ih

/-- Numbering a stage and those after it once more is as good as numbering them once. Since the
stage has a final iterate, it does not matter where the problem would start. -/
theorem renumber_follow {start start' : List α} {next : List α → Launch α}
    {continued continued' : Iterates α → Nat → Iterates α} {j : Nat} (h : its.WellFormed breaks j)
    (hcontinued : ∀ x its', (next x).iterates = .ok (some its') →
      ∀ k k', renumber (continued' its' k') k = continued its' k)
    (last last' : Option (List α)) (k k' : Nat) :
    renumber (follow start' next continued' its last' k') k =
      follow start next continued its last k := by
  induction h generalizing last last' k k' with
  | @last j it rest _ hs h =>
    rw [follow, if_neg hs, renumber_recordAll, follow, if_neg hs]
    refine congrArg _ ?_
    cases hlaunch : (next it.x).iterates with
    | error cause => rfl
    | ok launched =>
      cases launched with
      | none =>
        simp only [renumber, renumber_ended h]
      | some its' =>
        simp only [renumber, hcontinued it.x its' hlaunch]
  | @more j it rest _ hs _ ih =>
    rw [follow, if_pos hs, follow, if_pos hs]
    exact yield_congr (ih _ _ _ _)
  | record _ ih => exact record_congr (ih _ _ _ _)
  | broken _ => rfl

theorem renumber_renumber (its : Iterates α) (j k : Nat) :
    renumber (renumber its j) k = renumber its k := by
  induction its generalizing j k with
  | done => rfl
  | broken cause => rfl
  | yield it rest ih => exact yield_congr (ih () _ _)
  | record p rest ih => exact record_congr (ih () _ _)

/-- Two ways to go on after a stage that come to the same. -/
theorem follow_congr {start : List α} {next next' : List α → Launch α}
    {continued continued' : Iterates α → Nat → Iterates α}
    {f : List α → Iterates α → Iterates α}
    (hrecorded : ∀ x, (next' x).recorded = (next x).recorded)
    (hiterates : ∀ x, (next' x).iterates = (next x).iterates.map (Option.map (f x)))
    (hcontinued : ∀ x its, (next x).iterates = .ok (some its) →
      ∀ k, continued' (f x its) k = continued its k)
    (its : Iterates α) (last : Option (List α)) (k : Nat) :
    follow start next' continued' its last k = follow start next continued its last k := by
  induction its generalizing last k with
  | done =>
    simp only [follow, hrecorded, hiterates]
    cases hnext : (next (last.getD start)).iterates with
    | error cause => rfl
    | ok launched =>
      cases launched with
      | none => rfl
      | some its => simp only [Except.map, Option.map_some, hcontinued _ its hnext]
  | broken cause => rfl
  | yield it rest ih =>
    simp only [follow, hrecorded, hiterates]
    split
    next => exact yield_congr (ih () _ _)
    next =>
      cases hnext : (next it.x).iterates with
      | error cause => rfl
      | ok launched =>
        cases launched with
        | none => rfl
        | some its => simp only [Except.map, Option.map_some, hcontinued _ its hnext]
  | record p rest ih => exact record_congr (ih () _ _)

theorem launch_restart (p : Problem α) (start : List α) (stage : Solver α) :
    launch { p with start } stage = launch p stage := rfl

theorem restarted_eq (p : Problem α) {x : List α} (hx : x.length = p.vars.length) :
    p.restarted x = .ok { p with start := x } := by
  rw [Problem.restarted, if_neg (not_not.mpr hx)]

theorem launch_eq_some {p : Problem α} {stage : Solver α} {x : List α} {its : Iterates α}
    (h : (launch p stage x).iterates = .ok (some its)) :
    ∃ p', p.restarted x = .ok p' ∧ (stage.start p').outcome = .ok its := by
  unfold launch at h
  split at h
  next => cases h
  next p' hp' =>
    dsimp only at h
    split at h
    next its' hits =>
      obtain rfl := Option.some.inj (Except.ok.inj h)
      exact ⟨p', hp', hits⟩
    next => cases h
    next => cases h

theorem launch_nested (p : Problem α) (m : Multistage α) (x : List α) :
    (launch p m.solver x).recorded = (launch p m.first x).recorded ∧
      (launch p m.solver x).iterates = (launch p m.first x).iterates.map fun its =>
        its.map fun its => sequence { p with start := x } m.rest its none 0 := by
  unfold launch
  cases hp : p.restarted x with
  | error e => exact ⟨rfl, rfl⟩
  | ok p' =>
    obtain rfl : { p with start := x } = p' := by
      unfold Problem.restarted at hp
      split at hp
      next => cases hp
      next => exact Except.ok.inj hp
    refine ⟨rfl, ?_⟩
    dsimp only [solver]
    cases houtcome : (m.first.start { p with start := x }).outcome with
    | ok its => rfl
    | error cause =>
      match cause with
      | .term (.fault _) => rfl
      | .term (.refused _) => rfl
      | .noIterates => rfl
      | .dimensionMismatch _ _ => rfl

end Multistage

/-- Whenever the solver starts, its sequence comes to its end. -/
def Solver.Completing (s : Solver α) : Prop :=
  ∀ p its, (s.start p).outcome = .ok its →
    ∃ outcome recorded, its.ComesTo p.vars.length outcome recorded

theorem Minimizer.completing {m : Minimizer α} (h : m.inner.Completing) : m.solver.Completing := by
  intro p its hits
  refine h p its ?_
  simp only [solver] at hits
  split at hits
  next => exact hits
  next => exact hits

namespace Multistage

open Iterates (ComesTo)

/-- Launching a stage adds what comes of running it and the stages after it. -/
theorem adds_launch {p : Problem α} {stage : Solver α} {rest : List (Solver α)} {x : List α}
    (hx : x.length = p.vars.length) (hstage : stage.Completing)
    (hrest : ∀ {its : Iterates α} {outcome recorded},
      its.ComesTo p.vars.length outcome recorded → ∀ k,
        let all := followedBy (outcome, recorded) fun list =>
          runStages p rest ((list.getLast?.map Iterate.x).getD x)
        (sequence p rest its none k).ComesTo p.vars.length (all.1.map (joined k)) all.2) :
    (launch p stage x).Adds p.vars.length (fun its k => sequence p rest its none k)
      (runStages p (stage :: rest) x) := by
  simp only [launch, restarted_eq p hx, runStages]
  cases houtcome : (stage.start { p with start := x }).outcome with
  | error cause =>
    match cause with
    | .term (.fault cause) => exact .broken _ cause
    | .term (.refused _) => exact .refused _
    | .noIterates => exact .refused _
    | .dimensionMismatch _ _ => exact .refused _
  | ok its =>
    obtain ⟨outcome, recorded, h⟩ := hstage _ its houtcome
    dsimp only
    rw [h.collect_eq]
    exact .started _ (hrest h) (followedBy_ne_nil h.ne_nil)

/-- The sequence of a stage and of those after it is what comes of running them one after
another. -/
theorem comesTo_sequence {p : Problem α} {stages : List (Solver α)}
    (hstages : ∀ stage ∈ stages, stage.Completing) {its : Iterates α}
    {outcome : Except Fault (List (Iterate α))} {recorded : List (Problem α)}
    (h : its.ComesTo p.vars.length outcome recorded) (x : List α) (last : Option (List α))
    (k : Nat) :
    let all := followedBy (outcome, recorded) fun list =>
      runStages p stages ((list.getLast?.map Iterate.x).getD x)
    (sequence p stages its last k).ComesTo p.vars.length (all.1.map (joined k)) all.2 := by
  induction stages generalizing its outcome recorded x last k with
  | nil =>
    simp only [runStages, followedBy_nothing]
    exact comesTo_renumber h k
  | cons stage rest ih =>
    refine comesTo_follow h (fun list final hlist hfinal => ?_) last k
    obtain ⟨final', hfinal', hx⟩ := h.exists_final list hlist
    obtain rfl := Option.some.inj (hfinal.symm.trans hfinal')
    rw [hfinal, Option.map_some, Option.getD_some]
    refine adds_launch hx (hstages stage (by simp)) fun h' k => ?_
    exact ih (fun s hs => hstages s (by simp [hs])) h' _ none k

theorem comesTo_solver {m : Multistage α} (hfirst : m.first.Completing)
    (hrest : ∀ stage ∈ m.rest, stage.Completing) {p : Problem α} {its : Iterates α}
    (hits : (m.first.start p).outcome = .ok its) :
    ∃ all recorded, (m.solver.start p).outcome = .ok all ∧
      all.ComesTo p.vars.length ((runStages p (m.first :: m.rest) p.start).1.map (joined 0))
        recorded ∧
      (m.solver.start p).recorded ++ recorded = (runStages p (m.first :: m.rest) p.start).2 := by
  obtain ⟨outcome, recorded, h⟩ := hfirst p its hits
  have houtcome : (m.solver.start p).outcome = .ok (sequence p m.rest its none 0) := by
    simp only [solver, hits]
    rfl
  simp only [runStages, hits, h.collect_eq]
  exact ⟨_, _, houtcome, comesTo_sequence hrest h p.start none 0, rfl⟩

theorem completing {m : Multistage α} (hfirst : m.first.Completing)
    (hrest : ∀ stage ∈ m.rest, stage.Completing) : m.solver.Completing := by
  intro p its h
  obtain ⟨its', hits, -⟩ := outcome_eq_ok h
  obtain ⟨its'', recorded, hits'', hcomes, -⟩ := comesTo_solver hfirst hrest hits
  obtain rfl := Except.ok.inj (h.symm.trans hits'')
  exact ⟨_, _, hcomes⟩

end Multistage

variable [Scalar α]

theorem PenaltyMethod.length_run [SoundTests α] {p : Problem α} {l : Lagrangian α} {it : Iterate α}
    (m : PenaltyMethod α) (hl : Lagrangian.ofProblem p = .ok l) (h : m.run l p.start = .ok it) :
    it.x.length = p.vars.length := by
  obtain ⟨hstart, -, d, hd⟩ := Lagrangian.ofProblem_spec hl
  have hm : (List.replicate l.constraints.length (0 : α)).length = l.constraints.length :=
    List.length_replicate
  obtain ⟨r, hr, h⟩ := bind_eq_ok.mp h
  have ha := hd.admits_of_evaluate hstart hm (mapError_eq_ok.mp hr)
  obtain ⟨result, hresult, h⟩ := bind_eq_ok.mp h
  obtain ⟨measured, -, h⟩ := bind_eq_ok.mp h
  obtain rfl := Except.ok.inj h
  rcases m.run_of_admits hl ha with ⟨-, hresult', -⟩ | ⟨result', it', hresult', -, hx, -⟩
  · cases hresult'.symm.trans (mapError_eq_ok.mp hresult)
  · obtain rfl := Except.ok.inj (hresult'.symm.trans (mapError_eq_ok.mp hresult))
    exact hx

theorem PenaltyMethod.completing [SoundTests α] (m : PenaltyMethod α) : m.solver.Completing := by
  intro p its h
  obtain ⟨l, hl, h⟩ := bind_eq_ok.mp h
  obtain ⟨it, hit, h⟩ := bind_eq_ok.mp h
  obtain rfl := Except.ok.inj h
  rcases m.run_spec hl with ⟨e, hrun⟩ | ⟨hrun, -⟩ | ⟨it', hrun, -, hs⟩
  · cases hit.symm.trans hrun
  · cases hit.symm.trans hrun
  · obtain rfl := Except.ok.inj (hit.symm.trans hrun)
    exact ⟨.ok [it], [], .last (m.length_run hl hit) hs rfl⟩

namespace MultiplierMethod

theorem x_of_step {m : MultiplierMethod α} {l : Lagrangian α} {left : Nat}
    {s next : OuterState α} {it : Iterate α} (h : m.step l left s = .ok (it, next)) :
    it.x = next.x := by
  obtain ⟨result, -, h⟩ := bind_eq_ok.mp h
  obtain ⟨measured, -, h⟩ := bind_eq_ok.mp h
  obtain ⟨rfl, rfl⟩ := Prod.mk.inj (Except.ok.inj h)
  rfl

theorem comesTo_iterates [SoundTests α] (m : MultiplierMethod α) {p : Problem α}
    {l : Lagrangian α} (hl : Lagrangian.ofProblem p = .ok l) (left : Nat) {s : OuterState α}
    (hs : Stands l s) : ∃ outcome, (m.iterates l left s).ComesTo l.dimension outcome [] := by
  induction left generalizing s with
  | zero =>
    rcases m.step_spec hl 0 hs with ⟨hstep, -⟩ | ⟨it, next, hstep, -, hfinal, -, hnext⟩
    · simp only [iterates, hstep]
      exact ⟨_, .broken _⟩
    · have hx : it.x.length = l.dimension := x_of_step hstep ▸ hnext.length_x
      simp only [iterates, hstep]
      exact ⟨.ok [it], .last hx (hfinal rfl) rfl⟩
  | succ left ih =>
    rcases m.step_spec hl (left + 1) hs with ⟨hstep, -⟩ | ⟨it, next, hstep, -, -, -, hnext⟩
    · simp only [iterates, hstep]
      exact ⟨_, .broken _⟩
    · have hx : it.x.length = l.dimension := x_of_step hstep ▸ hnext.length_x
      simp only [iterates, hstep]
      by_cases hstatus : it.status = .inProgress
      · obtain ⟨outcome, houtcome⟩ := ih hnext
        refine ⟨outcome.map (it :: ·), .more hstatus hx ?_⟩
        rwa [if_pos hstatus]
      · refine ⟨.ok [it], .last hx hstatus ?_⟩
        rw [if_neg hstatus]

theorem completing [SoundTests α] (m : MultiplierMethod α) : m.solver.Completing := by
  intro p its h
  obtain ⟨l, hl, rfl, hs⟩ := outcome_eq_ok h
  obtain ⟨-, -, d, hd⟩ := Lagrangian.ofProblem_spec hl
  obtain ⟨outcome, houtcome⟩ := m.comesTo_iterates hl _ hs
  exact ⟨outcome, [], hd.dimension_eq ▸ houtcome⟩

end MultiplierMethod

variable {kind : Lbfgs α → Prop} {breaks : Fault → Prop}

theorem Solver.Built.completing [SoundTests α] {s : Solver α} (h : s.Built kind) :
    s.Completing := by
  induction h with
  | penalty m _ => exact m.completing
  | multiplier m _ => exact m.completing
  | minimizer m _ ih => exact Minimizer.completing ih
  | multistage m _ _ ihfirst ihrest => exact Multistage.completing ihfirst ihrest

namespace Multistage

theorem launch_wellFormed {p : Problem α} {stage : Solver α} (hstage : stage.Regular breaks)
    {x : List α} {its : Iterates α} (h : (launch p stage x).iterates = .ok (some its)) :
    its.WellFormed breaks 0 := by
  obtain ⟨p', -, hits⟩ := launch_eq_some h
  exact hstage.wellFormed p' its hits

/-- It does not matter to the stages after the first where the problem starts, nor how their
iterates are numbered before they are numbered in the end. -/
theorem renumber_sequence (p : Problem α) (start : List α) {stages : List (Solver α)}
    (hstages : ∀ stage ∈ stages, stage.Regular breaks) {j : Nat} {its : Iterates α}
    (h : its.WellFormed breaks j) (last last' : Option (List α)) (k k' : Nat) :
    renumber (sequence { p with start } stages its last' k') k = sequence p stages its last k := by
  induction stages generalizing j its last last' k k' with
  | nil => exact renumber_renumber its k' k
  | cons stage rest ih =>
    rw [sequence, sequence, launch_restart]
    refine renumber_follow h (fun x its' hits i i' => ?_) last last' k k'
    have hwf := launch_wellFormed (hstages stage (by simp)) hits
    exact ih (fun s hs => hstages s (by simp [hs])) hwf none none i i'

/-- A tail of stages can be made one stage of its own. -/
theorem sequence_nested (p : Problem α) (before : List (Solver α)) {m : Multistage α}
    (hfirst : m.first.Regular breaks) (hrest : ∀ stage ∈ m.rest, stage.Regular breaks)
    (its : Iterates α) (last : Option (List α)) (k : Nat) :
    sequence p (before ++ [m.solver]) its last k =
      sequence p (before ++ m.first :: m.rest) its last k := by
  induction before generalizing its last k with
  | nil =>
    refine follow_congr (fun x => (launch_nested p m x).1) (fun x => (launch_nested p m x).2)
      (fun x its' hits k => ?_) its last k
    exact renumber_sequence p x hrest (launch_wellFormed hfirst hits) none none k 0
  | cons stage before ih =>
    have hih : (fun its k => sequence p (before ++ [m.solver]) its none k) =
        fun its k => sequence p (before ++ m.first :: m.rest) its none k :=
      funext fun its => funext fun k => ih its none k
    rw [List.cons_append, List.cons_append, sequence, sequence, hih]

theorem start_single {stage : Solver α} (h : stage.Regular breaks) (p : Problem α) :
    (Multistage.mk stage []).solver.start p = stage.start p := by
  have hsame : (stage.start p).outcome.map (fun its => sequence p [] its none 0) =
      (stage.start p).outcome := by
    cases houtcome : (stage.start p).outcome with
    | error cause => rfl
    | ok its => exact congrArg Except.ok (renumber_wellFormed (h.wellFormed p its houtcome))
  simp only [solver, hsame]

theorem start_nested (first : Solver α) (before : List (Solver α)) {inner : Multistage α}
    (hinner : inner.first.Regular breaks) (hrest : ∀ stage ∈ inner.rest, stage.Regular breaks)
    (p : Problem α) :
    ((Multistage.mk first before).andThen inner.solver).solver.start p =
      (Multistage.mk first (before ++ inner.first :: inner.rest)).solver.start p := by
  have hsame : (fun its => sequence p (before ++ [inner.solver]) its none 0) =
      fun its => sequence p (before ++ inner.first :: inner.rest) its none 0 :=
    funext fun its => sequence_nested p before hinner hrest its none 0
  exact congrArg (fun f => { first.start p with outcome := (first.start p).outcome.map f }) hsame

end Multistage

open Multistage (joined runStages)

/-- Stages that are chained give the sequence that comes of running them one after another, each
from where the one before it ended, until one does not start: their iterates are numbered through,
and none but the very last is final. A fault in one of them breaks the sequence, which needs a
minimisation without room for its curvature pairs. A stage alone is not changed by this, and it
makes no difference whether the last stages are chained among themselves before. -/
theorem multistage_runs_stages [SoundTests α] {first : Solver α} {rest : List (Solver α)}
    (hbuilt : ∀ stage ∈ first :: rest, stage.Built kind) (p : Problem α) :
    (∀ its₁, (first.start p).outcome = .ok its₁ →
      ∃ its, ((Multistage.mk first rest).solver.start p).outcome = .ok its ∧
        its.collect.1 = (runStages p (first :: rest) p.start).1.map (joined 0) ∧
        (∀ all, (runStages p (first :: rest) p.start).1 = .ok all →
          ∀ n, its.reply n = .ok (joined 0 all)[n]?) ∧
        (∀ cause, (runStages p (first :: rest) p.start).1 = .error cause → Overflow kind cause) ∧
        ((Multistage.mk first rest).solver.start p).recorded ++ its.collect.2 =
          (runStages p (first :: rest) p.start).2) ∧
    (Multistage.mk first []).solver.start p = first.start p ∧
    ∀ before inner after, rest = before ++ inner :: after →
      ((Multistage.mk first before).andThen (Multistage.mk inner after).solver).solver.start p =
        (Multistage.mk first rest).solver.start p := by
  have hregular : ∀ stage ∈ first :: rest, stage.Regular (Overflow kind) :=
    fun s hs => (hbuilt s hs).regular
  have hfirst : first.Regular (Overflow kind) := hregular first (by simp)
  have hrest : ∀ stage ∈ rest, stage.Regular (Overflow kind) :=
    fun s hs => hregular s (by simp [hs])
  refine ⟨fun its₁ hits => ?_, ?_, ?_⟩
  · obtain ⟨its, recorded, houtcome, hcomes, hrecorded⟩ := Multistage.comesTo_solver
      (m := ⟨first, rest⟩) (hbuilt first (by simp)).completing
      (fun s hs => (hbuilt s (List.mem_cons_of_mem first hs)).completing) hits
    have hregular : (Multistage.mk first rest).solver.Regular (Overflow kind) :=
      Multistage.regular hfirst hrest
    have hwellFormed := hregular.wellFormed p its houtcome
    have hcollect := congrArg Prod.fst hcomes.collect_eq
    refine ⟨its, houtcome, hcollect, fun all hall => ?_, fun cause hcause => ?_, ?_⟩
    · rw [hall] at hcollect
      exact (hwellFormed.completed hcollect).reply
    · rw [hcause] at hcollect
      exact (hwellFormed.breaksOff hcollect).1
    · rw [hcomes.collect_eq]
      exact hrecorded
  · exact Multistage.start_single hfirst p
  · rintro before inner after rfl
    exact Multistage.start_nested first before (hrest inner (by simp))
      (fun s hs => hrest s (by simp [hs])) p

theorem multistage_runs_stages_parabola :
    (∀ stage ∈ [PenaltyMethod.standard.solver, MultiplierMethod.standard.solver],
      stage.Built Lbfgs.Reservable) ∧
      ∃ its₁ its all, (PenaltyMethod.standard.solver.start parabola).outcome = .ok its₁ ∧
        ((Multistage.mk PenaltyMethod.standard.solver
          [MultiplierMethod.standard.solver]).solver.start parabola).outcome = .ok its ∧
        (runStages parabola
          [PenaltyMethod.standard.solver, MultiplierMethod.standard.solver] [1]).1 = .ok all ∧
        all.map (fun it => (it.x, it.iteration, it.status)) =
          [([0], 0, .converged), ([0], 0, .converged)] ∧
        its.reply 0 = .ok (joined 0 all)[0]? ∧ its.collect.1 = .ok (joined 0 all) := by
  have hbuilt : ∀ stage ∈ [PenaltyMethod.standard.solver, MultiplierMethod.standard.solver],
      stage.Built Lbfgs.Reservable := by
    simp only [List.mem_cons, List.not_mem_nil, or_false, forall_eq_or_imp, forall_eq]
    exact ⟨.penalty _ (by decide), .multiplier _ (by decide)⟩
  have hruns : (runStages parabola
      [PenaltyMethod.standard.solver, MultiplierMethod.standard.solver] [1]).1.toOption.map
        (fun all => all.map fun it => (it.x, it.iteration, it.status)) =
          some [([0], 0, .converged), ([0], 0, .converged)] := by decide +kernel
  obtain ⟨all, hall, hpoints⟩ := Option.map_eq_some_iff.mp hruns
  have hok := toOption_eq_some.mp hall
  have hstarts : (PenaltyMethod.standard.solver.start parabola).outcome.isOk = true := by
    decide +kernel
  cases h : (PenaltyMethod.standard.solver.start parabola).outcome with
  | error e =>
    rw [h] at hstarts
    cases hstarts
  | ok its₁ =>
    obtain ⟨its, hits, hcollect, hreply, -⟩ := (multistage_runs_stages hbuilt parabola).1 its₁ h
    refine ⟨hbuilt, its₁, its, all, rfl, hits, hok, hpoints, hreply all hok 0, ?_⟩
    rw [hcollect, show (runStages parabola _ parabola.start).1 = _ from hok]
    rfl

end Autodiff
