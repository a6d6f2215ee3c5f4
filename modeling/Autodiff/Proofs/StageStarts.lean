import Mathlib.Data.List.Chain
import Autodiff.Proofs.Sequences
import Autodiff.Proofs.Storage

namespace Autodiff

variable {α : Type}

/-- A stage as a function of the problem. It gives an error, which breaks no promise, or finitely many
iterates of any kind. -/
structure Stage (α : Type) where
  run : Problem α → Except (MinimizationError α) (List (Iterate α))
  no_fault : ∀ p cause, run p ≠ .error (.term (.fault cause))

/-- The solver that runs a stage. It notes the problem on which the stage is started. -/
def Stage.solver (stage : Stage α) : Solver α :=
  ⟨fun p => match stage.run p with
    | .ok list => { recorded := [p], outcome := .ok (.ofList list) }
    | .error e => { outcome := .error e }⟩

/-- A stage that gives the same iterates for every problem. -/
def Stage.constant (list : List (Iterate α)) : Stage α := ⟨fun _ => .ok list, nofun⟩

/-- Where a stage was started, and the iterates that were taken from it. -/
structure Leg (α : Type) where
  start : List α
  iterates : List (Iterate α)

namespace Multistage

/-- The iterates up to the first final one, or all of them. -/
def uptoFinal : List (Iterate α) → List (Iterate α)
  | [] => []
  | it :: rest => if it.status = .inProgress then it :: uptoFinal rest else [it]

/-- The point of the last of some iterates, or else the start. -/
def lastPoint (start : List α) (list : List (Iterate α)) : List α :=
  (list.getLast?.map Iterate.x).getD start

/-- Numbers iterates from `k` on. -/
def numbered (k : Nat) (list : List (Iterate α)) : List (Iterate α) :=
  list.mapIdx fun i it => { it with iteration := k + i }

def inProgress (it : Iterate α) : Iterate α := { it with status := .inProgress }

/-- What comes of a stage that was started at `x` and gives some iterates, and of the stages after it.
As soon as the stage has come to a final iterate, or to its end, the next one is started at its last
point, or at the start of the problem if it has none. If that is impossible, nothing more is
started. -/
def legs (p : Problem α) : List (Stage α) → List α → List (Iterate α) → List (Leg α)
  | [], x, list => [⟨x, list⟩]
  | stage :: rest, x, list =>
    let taken := uptoFinal list
    let y := lastPoint p.start taken
    match p.restarted y >>= stage.run with
    | .error _ => [⟨x, list⟩]
    | .ok next => ⟨x, taken⟩ :: legs p rest y next

/-- The iterates of all legs. Only those of the last leg keep a final status. -/
def combined : List (Leg α) → List (Iterate α)
  | [] => []
  | [leg] => leg.iterates
  | leg :: next :: later => leg.iterates.map inProgress ++ combined (next :: later)

theorem numbered_cons (k : Nat) (it : Iterate α) (list : List (Iterate α)) :
    numbered k (it :: list) = { it with iteration := k } :: numbered (k + 1) list := by
  rw [numbered, List.mapIdx_cons, numbered]
  refine congrArg _ (congrArg (fun f => list.mapIdx f) (funext fun i => funext fun it' => ?_))
  have hnumber : k + (i + 1) = k + 1 + i := by omega
  simp only [hnumber]

theorem numbered_append (k : Nat) (list list' : List (Iterate α)) :
    numbered k (list ++ list') = numbered k list ++ numbered (k + list.length) list' := by
  induction list generalizing k with
  | nil => rfl
  | cons it list ih =>
    have hnumber : k + 1 + list.length = k + (list.length + 1) := by omega
    rw [List.cons_append, numbered_cons, numbered_cons, ih, List.length_cons, hnumber,
      List.cons_append]

theorem lastPoint_cons (start : List α) (it : Iterate α) (list : List (Iterate α)) :
    lastPoint start (it :: list) = lastPoint it.x list := by
  cases list with
  | nil => rfl
  | cons it' list =>
    rw [lastPoint, List.getLast?_cons_cons, lastPoint, List.getLast?_eq_some_getLast (by simp)]
    rfl

theorem collect_recordAll (problems : List (Problem α)) (its : Iterates α) :
    (Iterates.recordAll problems its).collect = (its.collect.1, problems ++ its.collect.2) := by
  induction problems with
  | nil => rfl
  | cons p problems ih => simp only [Iterates.recordAll, Iterates.collect, ih, List.cons_append]

theorem collect_renumber (list : List (Iterate α)) (k : Nat) :
    (renumber (.ofList list) k).collect = (.ok (numbered k list), []) := by
  induction list generalizing k with
  | nil => rfl
  | cons it list ih =>
    simp only [Iterates.ofList, renumber, Iterates.collect, ih, numbered_cons]
    rfl

/-- A launch moves the problem and runs the stage on it. -/
theorem launch_stage (p : Problem α) (stage : Stage α) (y : List α) :
    launch p stage.solver y =
      match p.restarted y >>= stage.run with
      | .error _ => { iterates := .ok none }
      | .ok next => { recorded := [{ p with start := y }], iterates := .ok (some (.ofList next)) } := by
  unfold launch
  cases hp : p.restarted y with
  | error e => rfl
  | ok p' =>
    obtain rfl : { p with start := y } = p' := by
      unfold Problem.restarted at hp
      split at hp
      next => cases hp
      next => exact Except.ok.inj hp
    rw [ok_bind]
    simp only [Stage.solver]
    cases hrun : stage.run { p with start := y } with
    | ok next => rfl
    | error cause =>
      match cause, hrun with
      | .term (.fault cause), hrun => exact absurd hrun (stage.no_fault _ cause)
      | .term (.refused _), _ => rfl
      | .noIterates, _ => rfl
      | .dimensionMismatch _ _, _ => rfl

/-- What is left of a stage, and what comes after it: all of its iterates if the next stage cannot be
started, and otherwise those up to the first final one, and what the next stage is continued
with. -/
theorem collect_follow (p : Problem α) (stage : Stage α)
    (continued : Iterates α → Nat → Iterates α) (list : List (Iterate α)) (last : Option (List α))
    (k : Nat) :
    (follow p.start (launch p stage.solver) continued (.ofList list) last k).collect =
      match p.restarted (lastPoint (last.getD p.start) (uptoFinal list)) >>= stage.run with
      | .error _ => (.ok (numbered k list), [])
      | .ok next =>
        ((continued (.ofList next) (k + (uptoFinal list).length)).collect.1.map
            (numbered k ((uptoFinal list).map inProgress) ++ ·),
          { p with start := lastPoint (last.getD p.start) (uptoFinal list) } ::
            (continued (.ofList next) (k + (uptoFinal list).length)).collect.2) := by
  induction list generalizing last k with
  | nil =>
    have hpoint : lastPoint (last.getD p.start) (uptoFinal ([] : List (Iterate α))) =
        last.getD p.start := rfl
    rw [Iterates.ofList, follow, launch_stage, hpoint, collect_recordAll]
    cases p.restarted (last.getD p.start) >>= stage.run with
    | error e => rfl
    | ok next =>
      cases hlater : (continued (.ofList next) k).collect with
      | mk iterates problems => cases iterates <;> simp [uptoFinal, numbered, hlater, Except.map]
  | cons it list ih =>
    rw [Iterates.ofList, follow, uptoFinal]
    by_cases hs : it.status = .inProgress
    · have hsame : inProgress it = it := by rw [inProgress, ← hs]
      have hnumber : k + 1 + (uptoFinal list).length = k + ((uptoFinal list).length + 1) := by omega
      rw [if_pos hs, if_pos hs, lastPoint_cons, Iterates.collect, ih, Option.getD_some,
        List.length_cons, List.map_cons, hsame, numbered_cons, numbered_cons, hnumber]
      cases p.restarted (lastPoint it.x (uptoFinal list)) >>= stage.run with
      | error e => rfl
      | ok next =>
        dsimp only
        cases (continued (.ofList next) (k + ((uptoFinal list).length + 1))).collect.1 <;> rfl
    · have hpoint : lastPoint (last.getD p.start) [it] = it.x := rfl
      rw [if_neg hs, if_neg hs, hpoint, launch_stage, collect_recordAll]
      cases p.restarted it.x >>= stage.run with
      | error e =>
        simp only [Iterates.collect, collect_renumber, numbered_cons]
        rfl
      | ok next =>
        simp only [Iterates.collect, List.length_singleton]
        cases (continued (.ofList next) (k + 1)).collect.1 <;> rfl

theorem exists_legs (p : Problem α) (stages : List (Stage α)) (x : List α)
    (list : List (Iterate α)) :
    ∃ taken later, legs p stages x list = ⟨x, taken⟩ :: later := by
  cases stages with
  | nil => exact ⟨list, [], rfl⟩
  | cons stage rest =>
    rw [legs]
    cases p.restarted (lastPoint p.start (uptoFinal list)) >>= stage.run with
    | error e => exact ⟨list, [], rfl⟩
    | ok next => exact ⟨uptoFinal list, _, rfl⟩

/-- The sequence of chained stages consists of their legs, and notes where each of them begins. -/
theorem collect_sequence (p : Problem α) (stages : List (Stage α)) (x : List α)
    (list : List (Iterate α)) (k : Nat) :
    (sequence p (stages.map Stage.solver) (.ofList list) none k).collect =
      (.ok (numbered k (combined (legs p stages x list))),
        (legs p stages x list).tail.map fun leg => { p with start := leg.start }) := by
  induction stages generalizing x list k with
  | nil => exact collect_renumber list k
  | cons stage rest ih =>
    rw [List.map_cons, sequence, collect_follow, legs, Option.getD_none]
    cases p.restarted (lastPoint p.start (uptoFinal list)) >>= stage.run with
    | error e => rfl
    | ok next =>
      have hlater := ih (lastPoint p.start (uptoFinal list)) next (k + (uptoFinal list).length)
      obtain ⟨taken, later, hlegs⟩ := exists_legs p rest (lastPoint p.start (uptoFinal list)) next
      rw [hlegs] at hlater
      simp only [hlegs, hlater, combined, numbered_append, List.length_map, Except.map,
        List.tail_cons, List.map_cons]

/-- Each leg but the first begins at the last point of the leg before it, or at the start of the
problem if that leg has no iterates. -/
theorem isChain_legs (p : Problem α) (stages : List (Stage α)) (x : List α)
    (list : List (Iterate α)) :
    (legs p stages x list).IsChain fun leg next => next.start = lastPoint p.start leg.iterates := by
  induction stages generalizing x list with
  | nil => exact .singleton _
  | cons stage rest ih =>
    rw [legs]
    cases p.restarted (lastPoint p.start (uptoFinal list)) >>= stage.run with
    | error e => exact .singleton _
    | ok next =>
      have hlater := ih (lastPoint p.start (uptoFinal list)) next
      obtain ⟨taken, later, hlegs⟩ := exists_legs p rest (lastPoint p.start (uptoFinal list)) next
      simp only [hlegs] at hlater ⊢
      exact List.isChain_cons_cons.mpr ⟨rfl, hlater⟩

/-- The point where a stage should be started after some legs: that of the last iterate of all of
them, or the start of the problem if they have none. -/
def progress (p : Problem α) (before : List (Leg α)) : List α :=
  lastPoint p.start (before.flatMap Leg.iterates)

/-- Every leg but the first begins where the iterates before it have led. -/
def KeepsProgress (p : Problem α) (all : List (Leg α)) : Prop :=
  ∀ before next after, all = before ++ next :: after → before ≠ [] → next.start = progress p before

theorem progress_of_ne_nil (p : Problem α) (before : List (Leg α)) {leg : Leg α}
    (h : leg.iterates ≠ []) : progress p (before ++ [leg]) = lastPoint p.start leg.iterates := by
  have hlast := List.getLast?_eq_some_getLast h
  simp [progress, lastPoint, List.flatMap_append, hlast]

theorem progress_of_nil (p : Problem α) (before : List (Leg α)) {leg : Leg α}
    (h : leg.iterates = []) : progress p (before ++ [leg]) = progress p before := by
  simp [progress, List.flatMap_append, h]

theorem start_of_isChain {p : Problem α} {all before after : List (Leg α)} {leg next : Leg α}
    (h : all.IsChain fun leg next => next.start = lastPoint p.start leg.iterates)
    (hsplit : all = before ++ leg :: next :: after) :
    next.start = lastPoint p.start leg.iterates := by
  rw [hsplit] at h
  exact (List.isChain_cons_cons.mp h.right_of_append).1

/-- A leg after one that has iterates begins where these have led. A leg after one without iterates
begins at the start of the problem, which is where the earlier iterates have led only if there are
none or they lead back to it. -/
theorem keepsProgress_iff (p : Problem α) {all : List (Leg α)}
    (h : all.IsChain fun leg next => next.start = lastPoint p.start leg.iterates) :
    KeepsProgress p all ↔ ∀ before leg next after, all = before ++ leg :: next :: after →
      leg.iterates = [] → progress p before = p.start := by
  constructor
  · intro hkeeps before leg next after hsplit hnone
    have hstart := start_of_isChain h hsplit
    have hprogress := hkeeps (before ++ [leg]) next after (by simp [hsplit]) (by simp)
    rw [progress_of_nil p before hnone] at hprogress
    rw [← hprogress, hstart, hnone]
    rfl
  · intro hback all' next after hsplit hne
    obtain ⟨before, leg, rfl⟩ : ∃ before leg, all' = before ++ [leg] :=
      ⟨_, _, (List.dropLast_append_getLast hne).symm⟩
    rw [List.append_assoc, List.singleton_append] at hsplit
    rw [start_of_isChain h hsplit]
    by_cases hnone : leg.iterates = []
    · rw [progress_of_nil p before hnone, hback before leg next after hsplit hnone, hnone]
      rfl
    · rw [progress_of_ne_nil p before hnone]

end Multistage

open Multistage

/-- Chained stages of any kind give the iterates of their legs, numbered through, and each stage is
started where its leg begins. This is the last point of the leg before it, which counts an iterate as
soon as it is worked out, or the start of the problem if that leg has no iterates. So progress is
forgotten by the stages after such a leg, unless the iterates before it lead back to the start of the
problem, and by no others. -/
theorem multistage_starts (first : Stage α) (rest : List (Stage α)) (p : Problem α)
    {list : List (Iterate α)} (h : first.run p = .ok list) :
    ∃ its, ((Multistage.mk first.solver (rest.map Stage.solver)).solver.start p).outcome = .ok its ∧
      its.collect.1 = .ok (numbered 0 (combined (legs p rest p.start list))) ∧
      ((Multistage.mk first.solver (rest.map Stage.solver)).solver.start p).recorded ++
          its.collect.2 =
        (legs p rest p.start list).map (fun leg => { p with start := leg.start }) ∧
      ((legs p rest p.start list).IsChain fun leg next =>
        next.start = lastPoint p.start leg.iterates) ∧
      (KeepsProgress p (legs p rest p.start list) ↔
        ∀ before leg next after, legs p rest p.start list = before ++ leg :: next :: after →
          leg.iterates = [] → progress p before = p.start) := by
  have hstart : first.solver.start p = { recorded := [p], outcome := .ok (.ofList list) } := by
    simp only [Stage.solver, h]
  have hcollect := collect_sequence p rest p.start list 0
  have hchain := isChain_legs p rest p.start list
  obtain ⟨taken, later, hlegs⟩ := exists_legs p rest p.start list
  refine ⟨_, by simp only [Multistage.solver, hstart]; rfl, by rw [hcollect], ?_, hchain,
    keepsProgress_iff p hchain⟩
  rw [hcollect, hlegs]
  simp only [Multistage.solver, hstart]
  rfl

/-- A variable to be minimised from one. -/
def slope : Problem Float := ⟨⟨#[.variable ⟨0⟩], 1⟩, ⟨0⟩, [], [⟨⟨0⟩, ⟨0⟩⟩], [1]⟩

/-- An iterate at a point, of which nothing else is known. -/
def pointAt (x : Float) (status : Status) : Iterate Float := ⟨[x], 0, 0, 0, [], 0, 0, status⟩

/-- A stage that ends without a final iterate, one that converges, and one without iterates. -/
theorem multistage_starts_threeStages : ∃ its,
    ((Multistage.mk (Stage.constant [pointAt 3 .inProgress, pointAt 2 .inProgress]).solver
      [(Stage.constant [pointAt 5 .converged]).solver, (Stage.constant []).solver]).solver.start
        slope).outcome = .ok its ∧
      its.collect.2.map Problem.start = [[2], [5]] ∧
      KeepsProgress slope (legs slope [Stage.constant [pointAt 5 .converged], Stage.constant []] [1]
        [pointAt 3 .inProgress, pointAt 2 .inProgress]) := by
  obtain ⟨its, hits, -, hstarts, -, hkeeps⟩ :=
    multistage_starts (Stage.constant [pointAt 3 .inProgress, pointAt 2 .inProgress])
      [Stage.constant [pointAt 5 .converged], Stage.constant []] slope rfl
  refine ⟨its, hits, ?_, hkeeps.mpr fun before leg next after hsplit hnone => ?_⟩
  · have hpoints := congrArg (List.map Problem.start) hstarts
    exact (List.cons.inj hpoints).2
  · have hlegs : legs slope [Stage.constant [pointAt 5 .converged], Stage.constant []] [1]
        [pointAt 3 .inProgress, pointAt 2 .inProgress] =
          [⟨[1], [pointAt 3 .inProgress, pointAt 2 .inProgress]⟩, ⟨[2], [pointAt 5 .converged]⟩,
            ⟨[5], []⟩] := rfl
    rw [show slope.start = [1] from rfl, hlegs] at hsplit
    match before, hsplit with
    | [], hsplit =>
      obtain ⟨rfl, -⟩ := List.cons.inj hsplit
      cases hnone
    | [_], hsplit =>
      obtain ⟨rfl, -⟩ := List.cons.inj (List.cons.inj hsplit).2
      cases hnone
    | _ :: _ :: [], hsplit => cases (List.cons.inj (List.cons.inj (List.cons.inj hsplit).2).2).2
    | _ :: _ :: _ :: _, hsplit => simp at hsplit

/-- The last of three stages is started at the start of the problem, though an iterate was given
before: the stage between them gives none. -/
theorem stage_forgets_progress :
    (∃ its, ((Multistage.mk (Stage.constant [pointAt 5 .converged]).solver
        [(Stage.constant []).solver, (Stage.constant []).solver]).solver.start slope).outcome =
          .ok its ∧ its.collect.1 = .ok [pointAt 5 .inProgress] ∧
        its.collect.2.map Problem.start = [[5], [1]]) ∧
      ¬KeepsProgress slope
        (legs slope [Stage.constant [], Stage.constant []] [1] [pointAt 5 .converged]) := by
  refine ⟨⟨_, rfl, rfl, rfl⟩, fun hkeeps => ?_⟩
  have hlegs : legs slope [Stage.constant [], Stage.constant []] [1] [pointAt 5 .converged] =
      [⟨[1], [pointAt 5 .converged]⟩, ⟨[5], []⟩, ⟨[1], []⟩] := rfl
  have hstart := hkeeps [⟨[1], [pointAt 5 .converged]⟩, ⟨[5], []⟩] ⟨[1], []⟩ [] hlegs (by simp)
  have hequal : (1 : Float) = 5 := (List.cons.inj hstart).1
  exact absurd hequal (by decide +kernel)

end Autodiff
