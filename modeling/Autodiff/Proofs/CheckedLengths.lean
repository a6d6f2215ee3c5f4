import Autodiff.Proofs.StoppingReasons

namespace Autodiff

variable {α β σ : Type} [Scalar α]

/-- What a minimisation gets to see of a reply whose length is checked. -/
def Reply.screened (dimension : Nat) (reply : Reply α) : Reply α :=
  if reply.gradient.length = dimension then reply else .undefined dimension

def Call.screened (dimension : Nat) (c : Call α) : Call α := ⟨c.point, c.reply.screened dimension⟩

/-- The length of a gradient, when it is wrong. -/
def Call.wrongLength? (dimension : Nat) (c : Call α) : Option Nat :=
  if c.reply.gradient.length = dimension then none else some c.reply.gradient.length

/-- An objective that is asked in the place of another, and passes on only gradients of the right
length. -/
def screen (dimension : Nat) (objective : σ → List α → Reply α × σ) (state : σ)
    (point : List α) : Reply α × σ :=
  ((objective state point).1.screened dimension, (objective state point).2)

theorem Reply.length_screened (dimension : Nat) (reply : Reply α) :
    (reply.screened dimension).gradient.length = dimension := by
  unfold screened
  split
  next h => exact h
  next => exact List.length_replicate

omit [Scalar α] in
theorem Call.wrongLength?_eq_none {dimension : Nat} {c : Call α} :
    c.wrongLength? dimension = none ↔ c.reply.gradient.length = dimension := by
  simp [wrongLength?]

theorem Call.screened_eq {dimension : Nat} {c : Call α}
    (h : c.reply.gradient.length = dimension) : c.screened dimension = c := by
  rw [screened, Reply.screened, if_pos h]

/-- Among some calls, the newest first, the first reply with a gradient of the wrong length had one of
length `n`. -/
def FirstWrong (dimension : Nat) (calls : List (Call α)) (n : Nat) : Prop :=
  ∃ newer c older, calls = newer ++ c :: older ∧ c.reply.gradient.length = n ∧ n ≠ dimension ∧
    ∀ c' ∈ older, c'.reply.gradient.length = dimension

omit [Scalar α] in
theorem findSome?_wrongLength? {dimension n : Nat} {made : List (Call α)} :
    made.findSome? (Call.wrongLength? dimension) = some n ↔ FirstWrong dimension made.reverse n := by
  rw [List.findSome?_eq_some_iff]
  constructor
  · rintro ⟨earlier, c, later, rfl, hc, hearlier⟩
    refine ⟨later.reverse, c, earlier.reverse, by simp, ?_⟩
    unfold Call.wrongLength? at hc
    split at hc
    next => cases hc
    next hne =>
      obtain rfl := Option.some.inj hc
      exact ⟨rfl, hne, fun c' hc' => Call.wrongLength?_eq_none.mp (hearlier c' (by simpa using hc'))⟩
  · rintro ⟨newer, c, older, hmade, rfl, hne, holder⟩
    refine ⟨older.reverse, c, newer.reverse, ?_, by simp [Call.wrongLength?, hne], fun c' hc' => ?_⟩
    · rw [← List.reverse_reverse made, hmade]
      simp
    · exact Call.wrongLength?_eq_none.mpr (holder c' (by simpa using hc'))

/-- A dialogue whose lengths are checked goes as the same dialogue behind the screen, and adds the
first wrong length to its answer. -/
theorem Dialogue.run_checkLengths_eq (d : Dialogue α β) (dimension : Nat)
    (objective : σ → List α → Reply α × σ) (state : σ) :
    ∃ (result : β) (made : List (Call α)), ∀ wrong calls calls',
      (d.checkLengths dimension wrong).run objective state calls =
        ((result, wrong.or (made.findSome? (Call.wrongLength? dimension))), made.reverse ++ calls) ∧
      d.run (screen dimension objective) state calls' =
        (result, (made.map (Call.screened dimension)).reverse ++ calls') := by
  induction d generalizing state with
  | answer result => exact ⟨result, [], fun wrong calls calls' => by simp [checkLengths, Dialogue.run]⟩
  | ask point next ih =>
    obtain ⟨reply, after, hreply⟩ : ∃ reply after, objective state point = (reply, after) :=
      ⟨_, _, rfl⟩
    obtain ⟨result, made, hrun⟩ := ih (reply.screened dimension) after
    refine ⟨result, ⟨point, reply⟩ :: made, fun wrong calls calls' => ?_⟩
    simp only [checkLengths, Dialogue.run, screen, hreply]
    by_cases hlength : reply.gradient.length = dimension
    · obtain ⟨hchecked, hscreened⟩ := hrun wrong (⟨point, reply⟩ :: calls) (⟨point, reply⟩ :: calls')
      rw [Reply.screened, if_pos hlength] at hchecked hscreened ⊢
      rw [if_pos hlength, hchecked, hscreened]
      simp [Call.wrongLength?, hlength, Call.screened_eq]
    · obtain ⟨hchecked, hscreened⟩ := hrun (wrong.or (some reply.gradient.length))
        (⟨point, reply⟩ :: calls) (⟨point, .undefined dimension⟩ :: calls')
      rw [Reply.screened, if_neg hlength] at hchecked hscreened ⊢
      rw [if_neg hlength, hchecked, hscreened]
      simp [Call.wrongLength?, hlength, Call.screened, Reply.screened]

/-- A reply that is of use after its length was checked had the right length. -/
theorem Reply.length_of_usable [SoundTests α] {dimension : Nat} {reply : Reply α}
    (h : ¬Lbfgs.Unusable (reply.screened dimension)) : reply.gradient.length = dimension := by
  by_contra hlength
  refine h (.inl ?_)
  rw [screened, if_neg hlength]
  exact SoundTests.isFinite_nan

/-- A usable reply that was the only one to be seen was the only one that was given. -/
theorem made_of_screened [SoundTests α] {dimension : Nat} {made : List (Call α)} {first : Call α}
    (husable : ¬Lbfgs.Unusable first.reply)
    (h : (made.map (Call.screened dimension)).reverse = [first]) : made = [first] := by
  rw [← List.map_reverse, List.map_eq_singleton_iff] at h
  obtain ⟨c, hmade, rfl⟩ := h
  rw [Call.screened_eq (Reply.length_of_usable husable), ← List.reverse_reverse made, hmade]
  rfl

namespace Lbfgs

variable {m : Lbfgs α} {dimension : Nat} {start : List α}

/-- What a checked minimisation makes of the lengths that it meets: its outcome, and the calls that it
has made, the newest first. -/
structure ChecksLengths (m : Lbfgs α) (dimension : Nat) (start : List α)
    (objective : σ → List α → Reply α × σ) (state : σ)
    (outcome : Except (MinimizationError α) (Minimum α)) (calls : List (Call α)) : Prop where
  start_iff : (outcome = .error (.dimensionMismatch dimension start.length) ∧ calls = []) ↔
    start.length ≠ dimension
  error_iff : start.length = dimension →
    ((∃ n, outcome = .error (.dimensionMismatch dimension n)) ↔
      ∃ c ∈ calls, c.reply.gradient.length ≠ dimension)
  first_iff : start.length = dimension → ∀ n,
    outcome = .error (.dimensionMismatch dimension n) ↔ FirstWrong dimension calls n
  /-- Without a wrong length the outcome is that of the minimisation without checks. -/
  bare : start.length = dimension → (∀ c ∈ calls, c.reply.gradient.length = dimension) →
    ∃ result, outcome = result.mapError .ofFault ∧
      (m.minimize start).run objective state [] = (result, calls)
  /-- There is only one fault, and no other error than a wrong length. -/
  error : ∀ e, outcome = .error e →
    (∃ n, e = .dimensionMismatch dimension n) ∨ e = .ofFault .capacityOverflow
  /-- The fault comes about when the first reply has the right length and there is no room for the
  curvature pairs. -/
  overflow_iff : outcome = .error (.ofFault .capacityOverflow) ↔ start.length = dimension ∧
    (objective state start).1.gradient.length = dimension ∧ m.Overflows (objective state start).1
  /-- The minimisation itself works with the replies that have passed the check, and with undefined
  ones of the right length in the place of the others. -/
  screened : start.length = dimension →
    (∃ result, (m.minimize start).run (screen dimension objective) state [] =
      (result, calls.map (Call.screened dimension))) ∧
    ∀ c ∈ calls.map (Call.screened dimension), c.reply.gradient.length = dimension
  length_calls : calls.length ≤
    1 + m.stopping.maxIterations * (m.lineSearch.maxBracket + m.lineSearch.maxZoom)

theorem checksLengths_of_start (m : Lbfgs α) (hstart : start.length ≠ dimension)
    (objective : σ → List α → Reply α × σ) (state : σ) :
    m.ChecksLengths dimension start objective state
      (.error (.dimensionMismatch dimension start.length)) [] where
  start_iff := ⟨fun _ => hstart, fun _ => ⟨rfl, rfl⟩⟩
  error_iff h := absurd h hstart
  first_iff h := absurd h hstart
  bare h := absurd h hstart
  error _ he := .inl ⟨_, (Except.error.inj he).symm⟩
  overflow_iff := ⟨nofun, fun h => absurd h.1 hstart⟩
  screened h := absurd h hstart
  length_calls := Nat.zero_le _

/-- If the room for the curvature pairs overflows, the first call was the only one, and its reply had
the right length. -/
theorem checksLengths_of_overflow (hstart : start.length = dimension)
    {objective : σ → List α → Reply α × σ} {state : σ}
    (hlength : (objective state start).1.gradient.length = dimension)
    (hover : m.Overflows (objective state start).1)
    (hscreened : (m.minimize start).run (screen dimension objective) state [] =
      (.error .capacityOverflow, [⟨start, (objective state start).1⟩]))
    (hbare : (m.minimize start).run objective state [] =
      (.error .capacityOverflow, [⟨start, (objective state start).1⟩])) :
    m.ChecksLengths dimension start objective state (.error (.ofFault .capacityOverflow))
      [⟨start, (objective state start).1⟩] where
  start_iff := ⟨nofun, fun h => absurd hstart h⟩
  error_iff _ := by simp [MinimizationError.ofFault, hlength]
  first_iff _ n := by
    refine ⟨nofun, fun h => ?_⟩
    obtain ⟨newer, c, older, hcalls, rfl, hne, -⟩ := h
    have hc : c ∈ [(⟨start, (objective state start).1⟩ : Call α)] := by rw [hcalls]; simp
    obtain rfl := List.mem_singleton.mp hc
    exact absurd hlength hne
  bare _ _ := ⟨_, rfl, hbare⟩
  error _ he := .inr (Except.error.inj he).symm
  overflow_iff := iff_of_true rfl ⟨hstart, hlength, hover⟩
  screened _ := by
    have hsame : ([⟨start, (objective state start).1⟩] : List (Call α)).map
        (Call.screened dimension) = [⟨start, (objective state start).1⟩] := by
      rw [List.map_singleton, Call.screened_eq hlength]
    rw [hsame]
    exact ⟨⟨_, hscreened⟩, by simpa using hlength⟩
  length_calls := Nat.le_add_right 1 _

theorem checksLengths_of_made (m : Lbfgs α) (hstart : start.length = dimension)
    {objective : σ → List α → Reply α × σ} {state : σ} {r : Minimum α} {made : List (Call α)}
    (hfits : ¬m.Overflows ((objective state start).1.screened dimension))
    (hscreened : (m.minimize start).run (screen dimension objective) state [] =
      (.ok r, (made.map (Call.screened dimension)).reverse))
    (hbare : made.findSome? (Call.wrongLength? dimension) = none →
      (m.minimize start).run objective state [] = (.ok r, made.reverse))
    (hcount : made.length ≤
      1 + m.stopping.maxIterations * (m.lineSearch.maxBracket + m.lineSearch.maxZoom)) :
    m.ChecksLengths dimension start objective state
      (checked dimension (.ok r, made.findSome? (Call.wrongLength? dimension))) made.reverse where
  start_iff := by
    constructor
    · rintro ⟨houtcome, hmade⟩
      rw [List.reverse_eq_nil_iff.mp hmade] at houtcome
      cases houtcome
    · exact fun h => absurd hstart h
  error_iff _ := by
    have hsome : (∃ n, checked dimension (.ok r, made.findSome? (Call.wrongLength? dimension)) =
        .error (.dimensionMismatch dimension n)) ↔
        ¬made.findSome? (Call.wrongLength? dimension) = none := by
      cases made.findSome? (Call.wrongLength? dimension) with
      | none => simp [checked]
      | some found => simp [checked]
    rw [hsome, List.findSome?_eq_none_iff]
    simp [Call.wrongLength?_eq_none]
  first_iff _ n := by
    rw [← findSome?_wrongLength?]
    cases made.findSome? (Call.wrongLength? dimension) with
    | none => simp [checked]
    | some found => simp [checked]
  bare _ hlengths := by
    have hnone : made.findSome? (Call.wrongLength? dimension) = none := by
      rw [List.findSome?_eq_none_iff]
      exact fun c hc => Call.wrongLength?_eq_none.mpr (hlengths c (by simpa using hc))
    exact ⟨.ok r, by rw [hnone]; rfl, hbare hnone⟩
  error e he := by
    cases hfound : made.findSome? (Call.wrongLength? dimension) with
    | none =>
      rw [hfound] at he
      cases he
    | some found =>
      rw [hfound] at he
      exact .inl ⟨found, (Except.error.inj he).symm⟩
  overflow_iff := by
    refine iff_of_false (fun he => ?_) fun h => hfits ?_
    · cases hfound : made.findSome? (Call.wrongLength? dimension) with
      | none =>
        rw [hfound] at he
        cases he
      | some found =>
        rw [hfound] at he
        cases he
    · rw [Reply.screened, if_pos h.2.1]
      exact h.2.2
  screened _ := by
    refine ⟨⟨_, by rw [hscreened, List.map_reverse]⟩, fun c hc => ?_⟩
    obtain ⟨c, -, rfl⟩ := List.mem_map.mp hc
    exact c.reply.length_screened dimension
  length_calls := by rwa [List.length_reverse]

/-- A checked minimisation refuses a start point of the wrong length without a call. Otherwise it
reports the first gradient of the wrong length, and when there is none its outcome is that of the
minimisation without checks, whatever the objective does from call to call. It breaks only where the
room for the curvature pairs overflows. -/
theorem minimizeChecked_checks_lengths [SoundTests α] (m : Lbfgs α) (dimension : Nat)
    (start : List α) (objective : σ → List α → Reply α × σ) (state : σ) :
    m.ChecksLengths dimension start objective state
      ((m.minimizeChecked dimension start).run objective state []).1
      ((m.minimizeChecked dimension start).run objective state []).2 := by
  by_cases hstart : start.length = dimension
  · obtain ⟨result, made, hrun⟩ :=
      (m.minimize start).run_checkLengths_eq dimension objective state
    obtain ⟨hchecked, hscreened⟩ := hrun none [] []
    rw [List.append_nil] at hchecked hscreened
    rw [Option.none_or] at hchecked
    have hlen (state : σ) (point : List α) (_ : point.length = start.length) :
        (screen dimension objective state point).1.gradient.length = start.length :=
      (Reply.length_screened dimension _).trans hstart.symm
    obtain ⟨result', log, calls, -, hminimum, hends⟩ :=
      exists_run_concludes (m.minimizeRecorded_ends start) hlen state
    obtain ⟨rfl, rfl⟩ := Prod.mk.inj (hscreened.symm.trans hminimum)
    have hbare (hnone : made.findSome? (Call.wrongLength? dimension) = none) :
        (m.minimize start).run objective state [] = (result, made.reverse) := by
      rw [hnone] at hchecked
      exact (Dialogue.run_checkLengths hchecked).2
    have hcount := hends.length_calls
    have hoverflow := hends.overflow
    rw [m.minimizeChecked_eq hstart, Dialogue.run_map, hchecked]
    cases hends.yields with
    | overflow hover =>
      have hlength := Reply.length_of_usable hover.usable
      have hsame : (screen dimension objective state start).1 = (objective state start).1 :=
        if_pos hlength
      have hmade := (hoverflow hover).2
      rw [hsame] at hover hmade
      obtain rfl := made_of_screened hover.usable hmade
      rw [hmade] at hscreened
      have hnone : [(⟨start, (objective state start).1⟩ : Call α)].findSome?
          (Call.wrongLength? dimension) = none := by simp [Call.wrongLength?, hlength]
      rw [hnone]
      exact checksLengths_of_overflow hstart hlength hover hscreened (hbare hnone)
    | result hfits _ =>
      exact m.checksLengths_of_made hstart hfits hscreened hbare (by simpa using hcount)
  · rw [minimizeChecked, if_pos hstart]
    exact m.checksLengths_of_start hstart objective state

/-- The squared length of a point. With every call its gradient gets another coordinate too many. -/
def lengthening (calls : Nat) (point : List Float) : Reply Float × Nat :=
  (⟨dot point point, point.map (2 * ·) ++ List.replicate calls 0⟩, calls + 1)

/-- The second gradient is the first one of the wrong length, and it is not the last. -/
theorem minimizeChecked_checks_lengths_lengthening :
    let run := (double.minimizeChecked 1 [3]).run lengthening 0 []
    run.1 = .error (.dimensionMismatch 1 2) ∧ FirstWrong 1 run.2 2 ∧ 2 < run.2.length := by
  have houtcome : ((double.minimizeChecked 1 [3]).run lengthening 0 []).1 =
      .error (.dimensionMismatch 1 2) := by decide +kernel
  have hcalls : 2 < ((double.minimizeChecked 1 [3]).run lengthening 0 []).2.length := by
    decide +kernel
  have hchecks := double.minimizeChecked_checks_lengths 1 [3] lengthening 0
  exact ⟨houtcome, (hchecks.first_iff rfl 2).mp houtcome, hcalls⟩

/-- All lengths are right, and still the minimisation has no result. -/
theorem minimizeChecked_boundless_breaks :
    (boundless.minimizeChecked 1 [3]).run (souring 2) 0 [] =
      (.error (.ofFault .capacityOverflow), [⟨[3], ⟨9, [6]⟩⟩]) := by decide +kernel

end Lbfgs

end Autodiff
