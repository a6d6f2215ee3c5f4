import Autodiff.Proofs.InnerProduct
import Autodiff.Proofs.Descent

namespace Autodiff

variable {α : Type} [OrderedScalar α]

/-- A curvature pair of vectors with `n` entries that has positive curvature. -/
structure CurvaturePair.Curved (n : Nat) (p : CurvaturePair α) : Prop where
  length_s : p.s.length = n
  length_y : p.y.length = n
  positive : 0 < dot p.s p.y
  rho : p.rho = 1 / dot p.s p.y

/-- A positive definite operator on the vectors with `n` entries. -/
structure PositiveDefinite (n : Nat) (H : List α → List α) : Prop where
  length (q : List α) : q.length = n → (H q).length = n
  positive (q : List α) : q.length = n → (∃ v ∈ q, v ≠ 0) → 0 < dot q (H q)

theorem PositiveDefinite.nonneg {n : Nat} {H : List α → List α} (h : PositiveDefinite n H)
    {q : List α} (hq : q.length = n) : 0 ≤ dot q (H q) := by
  by_cases hz : ∃ v ∈ q, v ≠ 0
  · exact (h.positive q hq hz).le
  · exact (dot_eq_zero_of_forall (by simpa using hz) _).ge

theorem positiveDefinite_initialScale {n : Nat} {pairs : List (CurvaturePair α)}
    (h : ∀ p ∈ pairs, p.Curved n) : PositiveDefinite n (initialScale pairs) := by
  have hid : PositiveDefinite n (fun q : List α => q) :=
    ⟨fun q hq => hq, fun q _ hz => dot_self_pos hz⟩
  cases pairs with
  | nil => exact hid
  | cons newest older =>
    have hcurved := h newest List.mem_cons_self
    by_cases hyy : 0 < dot newest.y newest.y
    · have hrho : 0 < newest.rho := by
        rw [hcurved.rho]
        exact one_div_pos.mpr hcurved.positive
      have hgamma : 0 < 1 / (newest.rho * dot newest.y newest.y) :=
        one_div_pos.mpr (mul_pos hrho hyy)
      refine ⟨fun q hq => ?_, fun q _ hz => ?_⟩
      · rw [initialScale, if_pos hyy, List.length_map, hq]
      · rw [initialScale, if_pos hyy, dot_scale]
        exact mul_pos (dot_self_pos hz) hgamma
    · have hsame : initialScale (newest :: older) = fun q => q := by
        funext q
        rw [initialScale, if_neg hyy]
      rw [hsame]
      exact hid

/-- Applying one more pair keeps the estimate positive definite. Of the form of the estimate, the
square of the product with `s` over the curvature is left besides the form of the older estimate. -/
theorem dot_applyPairs_cons {n : Nat} {scale : List α → List α} {pair : CurvaturePair α}
    {older : List (CurvaturePair α)} (hp : pair.Curved n)
    (ho : PositiveDefinite n (applyPairs scale older)) {q : List α} (hq : q.length = n) :
    dot q (applyPairs scale (pair :: older) q) =
      dot (adjust (fun qj yj => qj - pair.rho * dot pair.s q * yj) q pair.y)
        (applyPairs scale older (adjust (fun qj yj => qj - pair.rho * dot pair.s q * yj) q pair.y)) +
      dot pair.s q * dot pair.s q / dot pair.s pair.y := by
  set a := pair.rho * dot pair.s q with ha
  set q' := adjust (fun qj yj => qj - a * yj) q pair.y with hq'
  set r := applyPairs scale older q' with hr
  have hq'len : q'.length = n := (length_adjust _ _ _).trans hq
  have hrlen : r.length = n := ho.length q' hq'len
  have hresult : dot q (applyPairs scale (pair :: older) q) =
      dot q r + (a - pair.rho * dot pair.y r) * dot q pair.s :=
    dot_adjust (fun _ _ => rfl) q (by rw [hp.length_s, hrlen])
  have hlower : dot r q' = dot r q + -a * dot r pair.y :=
    dot_adjust (fun x y => by ring) r (by rw [hp.length_y, hq])
  have hne : dot pair.s pair.y ≠ 0 := hp.positive.ne'
  rw [hresult, dot_comm q' r, hlower, dot_comm q pair.s, dot_comm r q, dot_comm pair.y r, ha, hp.rho]
  field_simp
  ring

theorem positiveDefinite_applyPairs {n : Nat} {scale : List α → List α}
    (hscale : PositiveDefinite n scale) {pairs : List (CurvaturePair α)}
    (h : ∀ p ∈ pairs, p.Curved n) : PositiveDefinite n (applyPairs scale pairs) := by
  induction pairs with
  | nil => exact hscale
  | cons pair older ih =>
    have hp := h pair List.mem_cons_self
    have ho := ih fun p hp => h p (List.mem_cons_of_mem _ hp)
    have hlen (q : List α) (a : α) (hq : q.length = n) :
        (adjust (fun qj yj => qj - a * yj) q pair.y).length = n := (length_adjust _ _ _).trans hq
    refine ⟨fun q hq => ?_, fun q hq hz => ?_⟩
    · exact (length_adjust _ _ _).trans (ho.length _ (hlen q _ hq))
    · rw [dot_applyPairs_cons hp ho hq]
      by_cases hs : dot pair.s q = 0
      · -- The older pairs are applied to the vector as it is.
        have hsame : adjust (fun qj yj => qj - pair.rho * dot pair.s q * yj) q pair.y = q :=
          adjust_eq_self (fun x y => by rw [hs, mul_zero, zero_mul, sub_zero]) q pair.y
        rw [hsame, hs, zero_mul, zero_div, add_zero]
        exact ho.positive q hq hz
      · have hsquare : 0 < dot pair.s q * dot pair.s q / dot pair.s pair.y :=
          div_pos (mul_self_pos.mpr hs) hp.positive
        exact add_pos_of_nonneg_of_pos (ho.nonneg (hlen q _ hq)) hsquare

/-- The direction of a search leads downhill. -/
theorem dot_searchDirection_neg {n : Nat} {pairs : List (CurvaturePair α)}
    (h : ∀ p ∈ pairs, p.Curved n) {gradient : List α} (hlen : gradient.length = n)
    (hz : ∃ v ∈ gradient, v ≠ 0) : dot gradient (searchDirection gradient pairs) < 0 := by
  rw [searchDirection, dot_neg]
  exact neg_neg_of_pos
    ((positiveDefinite_applyPairs (positiveDefinite_initialScale h) h).positive gradient hlen hz)

theorem zipWith_sub_along {x d : List α} (h : x.length = d.length) (t : α) :
    List.zipWith (· - ·) (along x d t) x = d.map (t * ·) := by
  rw [← zipWith_add_eq_along h]
  induction x generalizing d with
  | nil =>
    obtain rfl : d = [] := List.eq_nil_of_length_eq_zero h.symm
    rfl
  | cons xi x ih =>
    cases d with
    | nil => cases h
    | cons di d =>
      rw [List.map_cons, List.zipWith_cons_cons, List.zipWith_cons_cons, ih (Nat.succ.inj h),
        add_sub_cancel_left]

namespace Descent

/-- The curvature pair of the way from one state to the next. -/
def pairTo (s next : Descent α) : CurvaturePair α :=
  let step := List.zipWith (· - ·) next.x s.x
  let change := List.zipWith (· - ·) next.reply.gradient s.reply.gradient
  ⟨step, change, 1 / dot step change⟩

/-- The pairs with positive curvature, the newest first, of the steps that led to a state since the
last search that failed. -/
def qualifyingPairs : Descent α → List (Round α) → List (CurvaturePair α)
  | _, [] => []
  | _, ⟨_, none⟩ :: _ => []
  | s, ⟨before, some _⟩ :: older =>
    let pair := before.pairTo s
    if 0 < dot pair.s pair.y then pair :: before.qualifyingPairs older
    else before.qualifyingPairs older

/-- A state holds the most recent of the pairs that its rounds have brought. -/
structure Remembers (memory n : Nat) (s : Descent α) (older : List (Round α)) : Prop where
  pairs : s.pairs = (s.qualifyingPairs older).take memory
  curved : ∀ p ∈ s.qualifyingPairs older, p.Curved n

theorem Remembers.curved_pairs {memory n : Nat} {s : Descent α} {older : List (Round α)}
    (h : s.Remembers memory n older) : ∀ p ∈ s.pairs, p.Curved n := fun p hp =>
  h.curved p (List.mem_of_mem_take (h.pairs ▸ hp))

theorem Remembers.cleared {memory n : Nat} (s : Descent α) (older : List (Round α)) :
    Remembers memory n { s with pairs := [] } (⟨s, none⟩ :: older) :=
  ⟨List.take_nil.symm, fun _ hp => absurd hp List.not_mem_nil⟩

theorem rememberPair_take (memory : Nat) (s y : List α) (pairs : List (CurvaturePair α)) :
    rememberPair memory s y (pairs.take memory) =
      (if 0 < dot s y then ⟨s, y, 1 / dot s y⟩ :: pairs else pairs).take memory := by
  unfold rememberPair
  dsimp only
  by_cases hsy : 0 < dot s y
  · cases memory with
    | zero => simp
    | succ memory =>
      rw [if_pos ⟨Nat.succ_pos memory, hsy⟩, if_pos hsy, List.take_succ_cons, List.take_succ_cons,
        List.take_take, Nat.min_eq_left (Nat.le_succ memory)]
  · rw [if_neg fun h => hsy h.2, if_neg hsy]

theorem Remembers.moved {memory n : Nat} {s : Descent α} {older : List (Round α)}
    (h : s.Remembers memory n older) (hx : s.x.length = n) (hg : s.reply.gradient.length = n)
    {d : List α} (hd : d.length = n) {a : AcceptedStep α} (ha : a.gradient.length = n) :
    (s.moved memory d a).Remembers memory n (⟨s, some a⟩ :: older) := by
  have hpair : s.pairTo (s.moved memory d a) =
      ⟨d.map (a.step * ·), List.zipWith (· - ·) a.gradient s.reply.gradient,
        1 / dot (d.map (a.step * ·)) (List.zipWith (· - ·) a.gradient s.reply.gradient)⟩ := by
    rw [pairTo, Descent.moved, zipWith_sub_along (hx.trans hd.symm)]
  constructor
  · rw [qualifyingPairs, hpair, Descent.moved, h.pairs]
    exact rememberPair_take memory _ _ _
  · intro p hp
    rw [qualifyingPairs, hpair] at hp
    dsimp only at hp
    split at hp
    next hpos =>
      rcases List.mem_cons.mp hp with rfl | hp
      · exact ⟨by simp [hd], by simp [ha, hg], hpos, rfl⟩
      · exact h.curved p hp
    next => exact h.curved p hp

end Descent

/-- Downhill, a search goes on to look for a bracket. -/
theorem Descent.search_eq_bracket (m : Lbfgs α) {s : Descent α}
    (h : dot s.reply.gradient s.direction < 0) :
    s.search m = (s.line m).bracket m.lineSearch.maxBracket true
      ⟨0, s.reply.value, dot s.reply.gradient s.direction, s.reply.gradient⟩ s.firstStep 0 := by
  have hnan : Scalar.isNaN (dot s.reply.gradient s.direction) = false := by
    rw [Scalar.isNaN, (ExactScalar.beq_iff _ _).mpr rfl, Bool.not_true]
  rw [search, strongWolfeStep, hnan, decide_eq_false h.not_ge]
  rfl

namespace Lbfgs

variable {admits : List α → Reply α → Prop} {calls : List (Call α)}

theorem maintains_remembers (m : Lbfgs α) {n : Nat}
    (hadmits : ∀ point reply, admits point reply → point.length = n → reply.gradient.length = n) :
    m.Maintains admits fun s log calls => (s.Stands n calls ∧ Sized n calls) ∧
      s.Remembers m.memory n log ∧ ∀ round older, round :: older <:+ log →
        round.state.reply.gradient.length = n ∧ round.state.Remembers m.memory n older := by
  intro s log calls ⟨⟨hs, hsized⟩, hremembers, hrounds⟩
  have hzero (hlt : (0 : α) < 0) (x d : List α) (_ : x.length = d.length) : along x d 0 = x :=
    absurd hlt (lt_irrefl 0)
  refine (search_ensures (s.line m).range_of_forall (fun _ => trivial) hadmits hzero hs
    hsized).mono fun found calls' h _ _ => ?_
  obtain ⟨hs', hsized', hfound⟩ := h
  have hrounds' : ∀ round older, round :: older <:+ ⟨s, found⟩ :: log →
      round.state.reply.gradient.length = n ∧ round.state.Remembers m.memory n older := by
    intro round older hsuffix
    rcases List.suffix_cons_iff.mp hsuffix with heq | hsuffix
    · cases heq
      exact ⟨hs.length_gradient, hremembers⟩
    · exact hrounds round older hsuffix
  cases found with
  | none => exact ⟨⟨⟨hs'.1, hs'.2, hs'.3, hs'.4, hs'.5⟩, hsized'⟩, .cleared s log, hrounds'⟩
  | some a =>
    obtain ⟨-, -, hadvance, hmoved⟩ := hfound a rfl
    exact ⟨_, _, hadvance, ⟨hmoved, hsized'⟩,
      hremembers.moved hs.length_x hs.length_gradient hs.length_direction hmoved.length_gradient,
      hrounds'⟩

/-- In every round of a minimisation, the curvature pairs in use are the most recent ones with
positive curvature since the last restart, and unless the gradient is zero the direction that they
lead to goes downhill, so that the search along it looks for a bracket. -/
theorem directions_descend (m : Lbfgs α) {σ : Type} {objective : σ → List α → Reply α × σ}
    {start : List α} (hlen : ∀ state point, point.length = start.length →
      (objective state point).1.gradient.length = start.length) (state : σ) :
    ∃ result log calls, (m.minimizeRecorded start).run objective state [] = ((result, log), calls) ∧
      (m.minimize start).run objective state [] = (result, calls) ∧
      ∀ round older, round :: older <:+ log →
        round.state.pairs = (round.state.qualifyingPairs older).take m.memory ∧
        round.state.pairs.length ≤ m.memory ∧
        (∀ p ∈ round.state.pairs, 0 < dot p.s p.y ∧ p.rho = 1 / dot p.s p.y) ∧
        ((∃ v ∈ round.state.reply.gradient, v ≠ 0) →
          dot round.state.reply.gradient round.state.direction < 0 ∧
          round.state.search m = (round.state.line m).bracket m.lineSearch.maxBracket true
            ⟨0, round.state.reply.value, dot round.state.reply.gradient round.state.direction,
              round.state.reply.gradient⟩ round.state.firstStep 0) := by
  have hmaintains : m.Maintains (FullGradient start.length) _ :=
    m.maintains_remembers fun _ _ h => h
  obtain ⟨result, log, calls, hrecorded, hrun, hends⟩ :=
    exists_run_concludes (minimizeRecorded_keeps hmaintains fun first hfirst husable =>
      ⟨stands_initial rfl (hfirst rfl) husable, ⟨List.take_nil.symm, nofun⟩, by simp⟩) hlen state
  refine ⟨result, log, calls, hrecorded, hrun, fun round older hround => ?_⟩
  have hne : log ≠ [] := List.ne_nil_of_mem (hround.mem List.mem_cons_self)
  obtain ⟨r, -, hkeeps⟩ := hends.result_of_round hne
  cases hkeeps with
  | unusable => exact absurd rfl hne
  | finished _ hfinished =>
    obtain ⟨s, iterations, termination, -, -, -, -, hrounds⟩ := hfinished
    obtain ⟨hlength, hremembers⟩ := hrounds round older hround
    have hcurved := hremembers.curved_pairs
    refine ⟨hremembers.pairs, ?_, fun p hp => ⟨(hcurved p hp).positive, (hcurved p hp).rho⟩,
      fun hz => ?_⟩
    · rw [hremembers.pairs]
      exact List.length_take_le _ _
    · have hneg := dot_searchDirection_neg hcurved hlength hz
      exact ⟨hneg, Descent.search_eq_bracket m hneg⟩

/-- The squares of two coordinates, the second one counted twice. -/
def bowl (point : List ℚ) : Reply ℚ :=
  ⟨dot point (List.zipWith (· * ·) [1, 2] point), List.zipWith (· * ·) [2, 4] point⟩

/-- Three rounds with room for one curvature pair. -/
def shortMemory : Lbfgs ℚ := ⟨1, ⟨3, 1 / 1000, 0, 0⟩, ⟨1 / 10000, 9 / 10, 10, 20, 30⟩⟩

/-- Of two pairs only the newer one is left in the third round. -/
theorem directions_descend_bowl : ∃ result log calls round older,
    (shortMemory.minimizeRecorded [3, 1]).run (fun _ point => (bowl point, ())) () [] =
      ((result, log), calls) ∧ log = round :: older ∧
      (round.state.qualifyingPairs older).length = 2 ∧
      round.state.pairs = (round.state.qualifyingPairs older).take 1 ∧
      dot round.state.reply.gradient round.state.direction < 0 := by
  let run := (shortMemory.minimizeRecorded [3, 1]).run (fun _ point => (bowl point, ())) () []
  have hpairs : (match run.1.2 with
      | [] => 0
      | round :: older => (round.state.qualifyingPairs older).length) = 2 := by decide +kernel
  have hnonzero : (run.1.2.head?.map fun round => round.state.reply.gradient.all (· == 0)) =
      some false := by decide +kernel
  have hlen (_ : Unit) (point : List ℚ) (h : point.length = [(3 : ℚ), 1].length) :
      ((bowl point, ()) : Reply ℚ × Unit).1.gradient.length = [(3 : ℚ), 1].length := by
    simp [bowl, h]
  obtain ⟨result, log, calls, hrun, -, hrounds⟩ := directions_descend shortMemory hlen ()
  simp only [run, hrun] at hpairs hnonzero
  cases log with
  | nil => cases hpairs
  | cons round older =>
    obtain ⟨hmemory, -, -, hdescends⟩ := hrounds round older List.suffix_rfl
    refine ⟨result, _, calls, round, older, hrun, rfl, hpairs, hmemory, (hdescends ?_).1⟩
    simpa using hnonzero

end Lbfgs

end Autodiff
