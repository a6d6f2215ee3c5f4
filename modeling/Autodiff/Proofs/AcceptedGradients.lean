import Autodiff.Proofs.StoppingReasons

namespace Autodiff

open Scalar (IsDefined)

variable {α σ : Type}

/-- The gradients at the steps that were accepted, the newest first. -/
def acceptedGradients (log : List (Round α)) : List (List α) :=
  log.filterMap fun round => round.found.map (·.gradient)

variable [Scalar α]

/-- No entry is the undefined value. -/
def EntriesDefined (v : List α) : Prop := ∀ y ∈ v, IsDefined y

section Rounded

variable [RoundedScalar α]

theorem defined_of_foldl {xs : List α} {a : α} (h : IsDefined (xs.foldl (· + ·) a)) :
    IsDefined a ∧ EntriesDefined xs := by
  induction xs generalizing a with
  | nil => exact ⟨h, nofun⟩
  | cons x xs ih =>
    obtain ⟨hsum, hxs⟩ := ih h
    obtain ⟨ha, hx⟩ := RoundedScalar.defined_of_add _ _ hsum
    exact ⟨ha, List.forall_mem_cons.mpr ⟨hx, hxs⟩⟩

theorem entriesDefined_of_zipWith {a b : List α} (hl : a.length ≤ b.length)
    (h : EntriesDefined (List.zipWith (· * ·) a b)) : EntriesDefined a := by
  induction a generalizing b with
  | nil => exact nofun
  | cons x a ih =>
    cases b with
    | nil => cases hl
    | cons y b =>
      obtain ⟨hxy, hrest⟩ := List.forall_mem_cons.mp h
      have hx := (RoundedScalar.defined_of_mul _ _ hxy).1
      exact List.forall_mem_cons.mpr ⟨hx, ih (Nat.le_of_succ_le_succ hl) hrest⟩

/-- An inner product is defined only if all entries with a partner are. -/
theorem entriesDefined_of_dot {a b : List α} (hl : a.length ≤ b.length) (h : IsDefined (dot a b)) :
    EntriesDefined a :=
  entriesDefined_of_zipWith hl (defined_of_foldl h).2

end Rounded

namespace Descent

variable {m : Lbfgs α} {s : Descent α} {a : AcceptedStep α} {calls calls' : List (Call α)}

/-- A step leads to a point where the objective replied with a finite value that meets the first
Wolfe condition. Nothing is said of the gradient in that reply. -/
structure Lowers (m : Lbfgs α) (s : Descent α) (calls : List (Call α)) (a : AcceptedStep α) :
    Prop where
  called : (⟨along s.x s.direction a.step, ⟨a.value, a.gradient⟩⟩ : Call α) ∈ calls
  finite : Scalar.isFinite a.value = true
  value_le : a.value ≤ s.reply.value + m.lineSearch.c1 * a.step * dot s.reply.gradient s.direction

theorem Lowers.mono (h : s.Lowers m calls a) (hold : calls <:+ calls') : s.Lowers m calls' a :=
  ⟨hold.mem h.called, h.finite, h.value_le⟩

variable [RoundedScalar α]

/-- A search that settles lowers the value, and begins with a gradient whose entries are defined. -/
theorem lowers_of_search (hsearch : (s.search m).Leads calls (some a) calls') :
    s.Lowers m calls' a ∧ EntriesDefined s.reply.gradient := by
  have hensures : (s.search m).Ensures (fun _ _ => True) _ calls :=
    strongWolfeStep_ensures rfl (s.line m).range_of_forall fun _ => trivial
  obtain ⟨⟨-, hnan⟩, hsettles⟩ := hensures.of_leads hsearch (fun _ _ => trivial) a rfl
  constructor
  · rcases hsettles with ⟨hcall, hfinite, hle, -⟩ | ⟨hlt, -⟩
    · exact ⟨hcall, hfinite, hle⟩
    · exact absurd hlt (RoundedScalar.lt_irrefl 0)
  · have hlength : s.reply.gradient.length ≤ s.direction.length :=
      (length_searchDirection _ _).ge
    exact entriesDefined_of_dot hlength (RoundedScalar.defined_of_isNaN _ hnan)

end Descent

/-- The accepted gradients, with the one at the start: the newest is where a minimisation stands, and
the entries of all others are defined. -/
structure Graded (first gradient : List α) (log : List (Round α)) : Prop where
  newest : (acceptedGradients log ++ [first]).head? = some gradient
  defined : ∀ g ∈ (acceptedGradients log ++ [first]).tail, EntriesDefined g

namespace Graded

variable {first gradient : List α} {log : List (Round α)}

theorem begin (first : List α) : Graded first first [] := ⟨rfl, nofun⟩

theorem fail (h : Graded first gradient log) (s : Descent α) :
    Graded first gradient (⟨s, none⟩ :: log) := ⟨h.newest, h.defined⟩

theorem accept (h : Graded first gradient log) (hdefined : EntriesDefined gradient) (s : Descent α)
    (a : AcceptedStep α) : Graded first a.gradient (⟨s, some a⟩ :: log) := by
  refine ⟨rfl, fun g hg => ?_⟩
  change g ∈ acceptedGradients log ++ [first] at hg
  obtain ⟨older, holder⟩ := List.head?_eq_some_iff.mp h.newest
  rw [holder] at hg
  rcases List.mem_cons.mp hg with rfl | hg
  · exact hdefined
  · exact h.defined g (by rw [holder]; exact hg)

end Graded

namespace Lbfgs

variable {m : Lbfgs α} {start : List α} {log : List (Round α)} {calls : List (Call α)}
  {s : Descent α} {r : Minimum α}

/-- All accepted steps lower the value. -/
def AllLower (m : Lbfgs α) (log : List (Round α)) (calls : List (Call α)) : Prop :=
  ∀ round ∈ log, ∀ a, round.found = some a → round.state.Lowers m calls a

theorem AllLower.fail {calls' : List (Call α)} (h : m.AllLower log calls) (hold : calls <:+ calls') :
    m.AllLower (⟨s, none⟩ :: log) calls' := by
  intro round hround a ha
  rcases List.mem_cons.mp hround with rfl | hround
  · cases ha
  · exact (h round hround a ha).mono hold

theorem AllLower.accept {calls' : List (Call α)} {a : AcceptedStep α} (h : m.AllLower log calls)
    (hold : calls <:+ calls') (ha : s.Lowers m calls' a) :
    m.AllLower (⟨s, some a⟩ :: log) calls' := by
  intro round hround a' ha'
  rcases List.mem_cons.mp hround with rfl | hround
  · obtain rfl := Option.some.inj ha'
    exact ha
  · exact (h round hround a' ha').mono hold

variable [RoundedScalar α]

theorem Follows.accepted (h : Follows m start log calls s) :
    m.AllLower log calls ∧ ∃ first, [⟨start, first⟩] <:+ calls ∧
      Graded first.gradient s.reply.gradient log := by
  induction h with
  | @begun first => exact ⟨nofun, first, List.suffix_rfl, .begin first.gradient⟩
  | moved _ hsearch _ ih =>
    obtain ⟨hlower, first, hfirst, hgraded⟩ := ih
    obtain ⟨ha, hdefined⟩ := Descent.lowers_of_search hsearch
    exact ⟨hlower.accept hsearch.suffix ha, first, hfirst.trans hsearch.suffix,
      hgraded.accept hdefined _ _⟩
  | cleared _ hsearch _ ih =>
    obtain ⟨hlower, first, hfirst, hgraded⟩ := ih
    exact ⟨hlower.fail hsearch.suffix, first, hfirst.trans hsearch.suffix, hgraded.fail _⟩

/-- What a minimisation has accepted when it ends. -/
structure Accepted (m : Lbfgs α) (start : List α) (first : Reply α) (r : Minimum α)
    (log : List (Round α)) (calls : List (Call α)) : Prop where
  lower : m.AllLower log calls
  graded : Graded first.gradient r.gradient log
  gradientNorm : r.gradientNorm = norm r.gradient

theorem Ends.accepted (h : Ends m start r log calls) :
    ∃ first, [⟨start, first⟩] <:+ calls ∧ Accepted m start first r log calls := by
  cases h with
  | @unusable first => exact ⟨first, List.suffix_rfl, nofun, .begin first.gradient, rfl⟩
  | @flat first => exact ⟨first, List.suffix_rfl, nofun, .begin first.gradient, rfl⟩
  | met hfollows _ hsearch _ =>
    obtain ⟨hlower, first, hfirst, hgraded⟩ := hfollows.accepted
    obtain ⟨ha, hdefined⟩ := Descent.lowers_of_search hsearch
    exact ⟨first, hfirst.trans hsearch.suffix, hlower.accept hsearch.suffix ha,
      hgraded.accept hdefined _ _, rfl⟩
  | stuck hfollows _ hsearch _ =>
    obtain ⟨hlower, first, hfirst, hgraded⟩ := hfollows.accepted
    exact ⟨first, hfirst.trans hsearch.suffix, hlower.fail hsearch.suffix, hgraded.fail _,
      hfollows.gradientNorm⟩
  | spent hfollows _ =>
    obtain ⟨hlower, first, hfirst, hgraded⟩ := hfollows.accepted
    exact ⟨first, hfirst, hlower, hgraded, hfollows.gradientNorm⟩

omit [RoundedScalar α] in
/-- Unusable gradients come from the objective alone: if it gives none with a finite value, none is
accepted, and none is returned. -/
theorem Accepted.usable {first : Reply α} (h : Accepted m start first r log calls)
    (hfirst : ¬Unusable first) (hreplies : ∀ c ∈ calls, Scalar.isFinite c.reply.value = true →
      Scalar.isFinite (norm c.reply.gradient) = true) :
    (∀ g ∈ acceptedGradients log, Scalar.isFinite (norm g) = true) ∧
      Scalar.isFinite r.gradientNorm = true := by
  have haccepted : ∀ g ∈ acceptedGradients log, Scalar.isFinite (norm g) = true := by
    intro g hg
    obtain ⟨round, hround, hg⟩ := List.mem_filterMap.mp hg
    obtain ⟨a, ha, rfl⟩ := Option.map_eq_some_iff.mp hg
    have hlower := h.lower round hround a ha
    exact hreplies _ hlower.called hlower.finite
  refine ⟨haccepted, ?_⟩
  rw [h.gradientNorm]
  rcases List.mem_append.mp (List.mem_of_mem_head? h.graded.newest) with hg | hg
  · exact haccepted _ hg
  · rw [List.mem_singleton.mp hg]
    rw [Unusable, not_or, Bool.not_eq_false, Bool.not_eq_false] at hfirst
    exact hfirst.2

/-- A minimisation accepts steps by their values. Every accepted step leads to a point where the
objective replied with a finite value that meets the first Wolfe condition, but the gradient in that
reply may be unusable, and then it is what the minimisation goes on with. If it has an undefined
entry, no further step is accepted, so that it is the one that is returned. A minimisation from a
usable reply accepts and returns usable gradients for every objective that gives no others with a
finite value. -/
theorem accepts_by_value (m : Lbfgs α) (start : List α) (objective : σ → List α → Reply α × σ)
    (state : σ) (hlen : ∀ state point, point.length = start.length →
      (objective state point).1.gradient.length = start.length) :
    ∃ result log calls,
      (m.minimizeRecorded start).run objective state [] = ((result, log), calls) ∧
      (m.minimize start).run objective state [] = (result, calls) ∧
      m.Yields (objective state start).1 (fun r =>
        Accepted m start (objective state start).1 r log calls ∧
        (¬Unusable (objective state start).1 →
          (∀ c ∈ calls, Scalar.isFinite c.reply.value = true →
            Scalar.isFinite (norm c.reply.gradient) = true) →
          (∀ g ∈ acceptedGradients log, Scalar.isFinite (norm g) = true) ∧
            Scalar.isFinite r.gradientNorm = true)) result := by
  obtain ⟨result, log, calls, hrecorded, hrun, hends⟩ :=
    exists_run_concludes (m.minimizeRecorded_ends start) hlen state
  refine ⟨result, log, calls, hrecorded, hrun, hends.yields.mono fun r _ hr => ?_⟩
  obtain ⟨first, hfirst, haccepted⟩ := hr.accepted
  obtain rfl := first_unique hends.begins hfirst
  exact ⟨haccepted, haccepted.usable⟩

/-- The settings for double precision, without narrowing of brackets. -/
def coarse : Lbfgs Float :=
  { double with lineSearch := { WolfeSettings.double with maxZoom := 0 } }

/-- The squared length of a point, whose gradient gets lost after two calls. -/
def fading (calls : Nat) (point : List Float) : Reply Float × Nat :=
  (⟨dot point point, point.map fun x => if calls < 2 then 2 * x else Scalar.nan⟩, calls + 1)

/-- The second of two accepted steps has an undefined gradient. Both searches that follow fail. -/
theorem accepts_by_value_fading : ∃ r log calls,
    (coarse.minimizeRecorded [3]).run fading 0 [] = ((.ok r, log), calls) ∧
      log.map (fun round => round.found.isSome) = [false, false, true, true] ∧
      Accepted coarse [3] (fading 0 [3]).1 r log calls ∧
      Scalar.isFinite r.value = true ∧ Scalar.isFinite r.gradientNorm = false := by
  have hrounds : ((coarse.minimizeRecorded [3]).run fading 0 []).1.2.map
      (fun round => round.found.isSome) = [false, false, true, true] := by decide +kernel
  have hreturned : ((coarse.minimizeRecorded [3]).run fading 0 []).1.1.toOption.map
      (fun r => (Scalar.isFinite r.value, Scalar.isFinite r.gradientNorm)) =
        some (true, false) := by decide +kernel
  obtain ⟨result, log, calls, hrun, -, hyields⟩ :=
    accepts_by_value coarse [3] fading 0 fun state point hpoint => by
      rw [fading, List.length_map, hpoint]
  obtain ⟨r, rfl, haccepted, -⟩ := hyields.exists_ok (by decide)
  rw [hrun] at hrounds hreturned
  obtain ⟨hvalue, hnorm⟩ := Prod.mk.inj (Option.some.inj hreturned)
  exact ⟨r, log, calls, hrun, hrounds, haccepted, hvalue, hnorm⟩

/-- From a usable reply, a search settles on a step whose gradient is undefined, though there is one
with a usable gradient at half that step. -/
theorem accepts_unusable_gradient :
    ¬Unusable ((prepared [(0, 1), (-1, Scalar.nan), (-0.5, 0)]).next [0]).1 ∧
    ∃ r log calls,
      (double.minimizeRecorded [0]).run Rehearsal.next
          (prepared [(0, 1), (-1, Scalar.nan), (-0.5, 0)]) [] = ((.ok r, log), calls) ∧
        (acceptedGradients log).length = 1 ∧ Scalar.isFinite r.gradientNorm = false := by
  refine ⟨?_, ?_⟩
  · unfold Unusable
    decide +kernel
  · obtain ⟨⟨⟨result, log⟩, calls⟩, hrun⟩ : ∃ outcome, (double.minimizeRecorded [0]).run
      Rehearsal.next (prepared [(0, 1), (-1, Scalar.nan), (-0.5, 0)]) [] = outcome := ⟨_, rfl⟩
    have haccepted : (acceptedGradients ((double.minimizeRecorded [0]).run Rehearsal.next
        (prepared [(0, 1), (-1, Scalar.nan), (-0.5, 0)]) []).1.2).length = 1 := by decide +kernel
    have hnorm : ((double.minimizeRecorded [0]).run Rehearsal.next
        (prepared [(0, 1), (-1, Scalar.nan), (-0.5, 0)]) []).1.1.toOption.map
          (fun r => Scalar.isFinite r.gradientNorm) = some false := by decide +kernel
    rw [hrun] at haccepted hnorm
    cases result with
    | error cause => cases hnorm
    | ok r => exact ⟨r, log, calls, hrun, haccepted, Option.some.inj hnorm⟩

end Lbfgs

end Autodiff
