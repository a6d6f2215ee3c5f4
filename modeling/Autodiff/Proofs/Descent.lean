import Autodiff.Proofs.Rounds

namespace Autodiff

variable {α : Type}

theorem length_adjust (f : α → α → α) (a b : List α) : (adjust f a b).length = a.length := by
  induction a generalizing b with
  | nil => rfl
  | cons x a ih =>
    cases b with
    | nil => rfl
    | cons y b => simp only [adjust, List.length_cons, ih]

theorem adjust_eq_self {f : α → α → α} (hf : ∀ x y, f x y = x) (a b : List α) : adjust f a b = a := by
  induction a generalizing b with
  | nil => rfl
  | cons x a ih =>
    cases b with
    | nil => rfl
    | cons y b => rw [adjust, hf, ih]

variable [Scalar α]

theorem length_applyPairs {scale : List α → List α} (hs : ∀ q, (scale q).length = q.length)
    (pairs : List (CurvaturePair α)) (q : List α) :
    (applyPairs scale pairs q).length = q.length := by
  induction pairs generalizing q with
  | nil => exact hs q
  | cons pair older ih => simp only [applyPairs, length_adjust, ih]

theorem length_initialScale (pairs : List (CurvaturePair α)) (q : List α) :
    (initialScale pairs q).length = q.length := by
  unfold initialScale
  split
  next => rfl
  next =>
    dsimp only
    split
    next => exact List.length_map _
    next => rfl

theorem length_searchDirection (gradient : List α) (pairs : List (CurvaturePair α)) :
    (searchDirection gradient pairs).length = gradient.length := by
  rw [searchDirection, List.length_map, length_applyPairs (length_initialScale pairs)]

theorem length_along (x d : List α) (t : α) : (along x d t).length = x.length := by
  simp only [along, List.length_append, List.length_zipWith, List.length_replicate]
  omega

/-- Moving all coordinates by their steps is moving along the line, when no direction is missing. -/
theorem zipWith_add_eq_along {x d : List α} (h : x.length = d.length) (t : α) :
    List.zipWith (· + ·) x (d.map (t * ·)) = along x d t := by
  rw [along, h, Nat.sub_self, List.replicate_zero, List.append_nil, List.zipWith_map_right]

variable {admits : List α → Reply α → Prop} {calls : List (Call α)}

namespace Line

variable {l : Line α} {gradient : List α} {ends tried : α → Prop}

/-- The steps at the ends of brackets, and those that a search along a line may try. -/
structure Range (l : Line α) (ends tried : α → Prop) : Prop where
  start : ends 0
  tried_ends (step : α) : tried step → ends step
  interpolate (lo hi : Trial α) : ends lo.step → ends hi.step →
    (interpolate lo hi == lo.step) = false → (Autodiff.interpolate lo hi == hi.step) = false →
      tried (Autodiff.interpolate lo hi)
  widen (t : Trial α) : tried t.step → l.decreases t = true → ¬l.params.maxStep ≤ t.step →
    tried (Scalar.min (t.step * Scalar.two) l.params.maxStep)

/-- Any step may be tried. -/
theorem range_of_forall (l : Line α) : l.Range (fun _ => True) fun _ => True where
  start := trivial
  tried_ends _ _ := trivial
  interpolate _ _ _ _ _ _ := trivial
  widen _ _ _ _ := trivial

/-- A trial at which a search along a line may settle: its start, where the gradient is given, or a
trial that was evaluated and meets the first condition. -/
def Reached (l : Line α) (tried : α → Prop) (gradient : List α) (calls : List (Call α))
    (t : Trial α) : Prop :=
  t = ⟨0, l.value, l.slope, gradient⟩ ∨
    ((⟨along l.x l.d t.step, ⟨t.value, t.gradient⟩⟩ : Call α) ∈ calls ∧ l.decreases t = true ∧
      tried t.step)

theorem Reached.mono {t : Trial α} {calls' : List (Call α)} (h : l.Reached tried gradient calls t)
    (hsub : ∀ c ∈ calls, c ∈ calls') : l.Reached tried gradient calls' t :=
  h.imp_right fun hc => ⟨hsub _ hc.1, hc.2⟩

theorem Reached.step_ends {t : Trial α} (h : l.Reached tried gradient calls t)
    (hrange : l.Range ends tried) : ends t.step := by
  rcases h with rfl | ⟨-, -, ht⟩
  · exact hrange.start
  · exact hrange.tried_ends _ ht

/-- The step that a search settled on was tried and meets the first condition. Only if zero lies
below itself it can be the start of the line as well. -/
def Settles (l : Line α) (tried : α → Prop) (gradient : List α) (calls : List (Call α))
    (a : AcceptedStep α) : Prop :=
  ((⟨along l.x l.d a.step, ⟨a.value, a.gradient⟩⟩ : Call α) ∈ calls ∧
    Scalar.isFinite a.value = true ∧ a.value ≤ l.value + l.params.c1 * a.step * l.slope ∧
      tried a.step) ∨
  ((0 : α) < 0 ∧ a.step = 0 ∧ a.value = l.value ∧ a.gradient = gradient)

theorem settles_accept {t : Trial α} (n : Nat)
    (hc : (⟨along l.x l.d t.step, ⟨t.value, t.gradient⟩⟩ : Call α) ∈ calls)
    (hd : l.decreases t = true) (ht : tried t.step) :
    l.Settles tried gradient calls (t.accept n) := by
  rw [decreases, Bool.and_eq_true, decide_eq_true_eq] at hd
  exact Or.inl ⟨hc, hd.1, hd.2, ht⟩

theorem settles_settle {lo : Trial α} {n : Nat} {a : AcceptedStep α}
    (hlo : l.Reached tried gradient calls lo) (h : settle lo n = some a) :
    l.Settles tried gradient calls a := by
  unfold settle at h
  split at h
  next hpos =>
    obtain rfl := Option.some.inj h
    rcases hlo with rfl | ⟨hc, hd, ht⟩
    · exact Or.inr ⟨hpos, rfl, rfl, rfl⟩
    · exact settles_accept n hc hd ht
  next => cases h

theorem probe_ensures {post : Trial α → List (Call α) → Prop} (step : α)
    (h : ∀ reply, admits (along l.x l.d step) reply →
      post ⟨step, reply.value, dot reply.gradient l.d, reply.gradient⟩
        (⟨along l.x l.d step, reply⟩ :: calls)) :
    (l.probe step).Ensures admits post calls := h

theorem zoom_ensures (hrange : l.Range ends tried) (gradient : List α) (rounds : Nat)
    {lo hi : Trial α} (evaluations : Nat) (hlo : l.Reached tried gradient calls lo)
    (hhi : ends hi.step) :
    (l.zoom rounds lo hi evaluations).Ensures admits
      (fun result calls' => ∀ a, result = some a → l.Settles tried gradient calls' a) calls := by
  induction rounds generalizing lo hi evaluations calls with
  | zero => exact fun a ha => settles_settle hlo ha
  | succ rounds ih =>
    unfold zoom
    dsimp only
    split
    next => exact fun a ha => settles_settle hlo ha
    next hapart =>
      rw [Bool.or_eq_true, not_or, Bool.not_eq_true, Bool.not_eq_true] at hapart
      have ht : tried (interpolate lo hi) :=
        hrange.interpolate lo hi (hlo.step_ends hrange) hhi hapart.1 hapart.2
      rw [Dialogue.ensures_bind]
      refine probe_ensures _ fun reply hreply => ?_
      have hold : l.Reached tried gradient
          (⟨along l.x l.d (interpolate lo hi), reply⟩ :: calls) lo :=
        hlo.mono fun c hc => List.mem_cons_of_mem _ hc
      split
      next => exact ih _ hold (hrange.tried_ends _ ht)
      next hdec =>
        simp only [Bool.or_eq_true, Bool.not_eq_true', decide_eq_true_eq, not_or,
          Bool.not_eq_false] at hdec
        have hnew : l.Reached tried gradient
            (⟨along l.x l.d (interpolate lo hi), reply⟩ :: calls)
            ⟨interpolate lo hi, reply.value, dot reply.gradient l.d, reply.gradient⟩ :=
          Or.inr ⟨List.mem_cons_self, hdec.1, ht⟩
        split
        next =>
          intro a ha
          obtain rfl := Option.some.inj ha
          exact settles_accept _ List.mem_cons_self hdec.1 ht
        next =>
          split
          next => exact ih _ hnew (hlo.step_ends hrange)
          next => exact ih _ hnew hhi

theorem bracket_ensures (hrange : l.Range ends tried) (gradient : List α) (rounds : Nat)
    (first : Bool) {previous : Trial α} {step : α} (evaluations : Nat)
    (hprevious : l.Reached tried gradient calls previous) (ht : tried step) :
    (l.bracket rounds first previous step evaluations).Ensures admits
      (fun result calls' => ∀ a, result = some a → l.Settles tried gradient calls' a) calls := by
  induction rounds generalizing first previous step evaluations calls with
  | zero => exact fun a ha => absurd ha (by simp)
  | succ rounds ih =>
    unfold bracket
    rw [Dialogue.ensures_bind]
    refine probe_ensures _ fun reply hreply => ?_
    have hold : l.Reached tried gradient (⟨along l.x l.d step, reply⟩ :: calls) previous :=
      hprevious.mono fun c hc => List.mem_cons_of_mem _ hc
    split
    next => exact zoom_ensures hrange _ _ _ hold (hrange.tried_ends _ ht)
    next hdec =>
      simp only [Bool.or_eq_true, Bool.not_eq_true', not_or, Bool.not_eq_false] at hdec
      have hnew : l.Reached tried gradient (⟨along l.x l.d step, reply⟩ :: calls)
          ⟨step, reply.value, dot reply.gradient l.d, reply.gradient⟩ :=
        Or.inr ⟨List.mem_cons_self, hdec.1, ht⟩
      split
      next =>
        intro a ha
        obtain rfl := Option.some.inj ha
        exact settles_accept _ List.mem_cons_self hdec.1 ht
      next =>
        split
        next => exact zoom_ensures hrange _ _ _ hnew (hold.step_ends hrange)
        next =>
          split
          next => exact fun a ha => absurd ha (by simp)
          next hmax => exact ih _ _ hnew (hrange.widen _ ht hdec.1 hmax)

end Line

/-- The start of a line leads downhill, so that a search along it is not given up at once. -/
def Line.Downhill (l : Line α) : Prop := ¬0 ≤ l.slope ∧ Scalar.isNaN l.slope = false

theorem Line.downhill_iff (l : Line α) :
    l.Downhill ↔ ¬(decide (0 ≤ l.slope) || Scalar.isNaN l.slope) = true := by
  rw [Downhill, Bool.or_eq_true, decide_eq_true_eq, not_or, Bool.not_eq_true]

/-- If a line search settles, then downhill on a step that it tried. -/
theorem strongWolfeStep_ensures {x d : List α} {start : Reply α} {step : α}
    {params : WolfeSettings α} {ends tried : α → Prop} {l : Line α}
    (hl : l = ⟨x, d, start.value, dot start.gradient d, params⟩) (hrange : l.Range ends tried)
    (ht : l.Downhill → tried step) :
    (strongWolfeStep x d start step params).Ensures admits
      (fun result calls' => ∀ a, result = some a →
        l.Downhill ∧ l.Settles tried start.gradient calls' a) calls := by
  subst hl
  unfold strongWolfeStep
  dsimp only
  split
  next => exact fun a ha => absurd ha (by simp)
  next hdown =>
    rw [← Line.downhill_iff ⟨x, d, start.value, dot start.gradient d, params⟩] at hdown
    exact (Line.bracket_ensures hrange _ _ _ _ (Or.inl rfl) (ht hdown)).mono
      fun result calls' h _ _ a ha => ⟨hdown, h a ha⟩

/-- The replies at points with `n` coordinates have gradients of that length. -/
def Sized (n : Nat) (calls : List (Call α)) : Prop :=
  ∀ c ∈ calls, c.point.length = n → c.reply.gradient.length = n

/-- A reply to a point of a length has a gradient of that length. -/
def FullGradient (n : Nat) (point : List α) (reply : Reply α) : Prop :=
  point.length = n → reply.gradient.length = n

namespace Descent

/-- A minimisation stands at a point with as many coordinates as its start, where the objective gave
the reply that it holds. -/
structure Stands (n : Nat) (calls : List (Call α)) (s : Descent α) : Prop where
  length_x : s.x.length = n
  length_gradient : s.reply.gradient.length = n
  called : (⟨s.x, s.reply⟩ : Call α) ∈ calls
  finite : Scalar.isFinite s.reply.value = true
  gradientNorm : s.gradientNorm = norm s.reply.gradient

theorem Stands.mono {n : Nat} {calls' : List (Call α)} {s : Descent α} (h : s.Stands n calls)
    (hold : calls <:+ calls') : s.Stands n calls' :=
  ⟨h.length_x, h.length_gradient, hold.mem h.called, h.finite, h.gradientNorm⟩

theorem Stands.length_direction {n : Nat} {s : Descent α} (h : s.Stands n calls) :
    s.direction.length = n := by
  rw [direction, length_searchDirection, h.length_gradient]

/-- Where a minimisation goes on after an accepted step along `d`. -/
def moved (memory : Nat) (s : Descent α) (d : List α) (a : AcceptedStep α) : Descent α where
  x := along s.x d a.step
  reply := ⟨a.value, a.gradient⟩
  gradientNorm := norm a.gradient
  pairs := rememberPair memory (d.map (a.step * ·))
    (List.zipWith (· - ·) a.gradient s.reply.gradient) s.pairs
  evaluations := s.evaluations + a.evaluations

theorem advance_eq (memory : Nat) {s : Descent α} {d : List α} {a : AcceptedStep α}
    (hd : d.length = s.x.length) (ha : a.gradient.length = s.x.length) :
    s.advance memory d a = .ok (s.moved memory d a, norm (d.map (a.step * ·))) := by
  have henough : ¬min d.length a.gradient.length < s.x.length := by omega
  have htake : d.take s.x.length = d := List.take_of_length_le (by omega)
  have hchange : (List.zipWith (· - ·) a.gradient s.reply.gradient).take s.x.length =
      List.zipWith (· - ·) a.gradient s.reply.gradient :=
    List.take_of_length_le (by rw [List.length_zipWith]; omega)
  simp only [advance, if_neg henough, htake, hchange, zipWith_add_eq_along hd.symm, moved]

/-- The step on which a search along the direction settled leads to a point where the objective
replied as the search says. -/
theorem Stands.called_of_settles {n : Nat} {s : Descent α} (h : s.Stands n calls)
    (hzero : (0 : α) < 0 → ∀ x d : List α, x.length = d.length → along x d 0 = x)
    {params : WolfeSettings α} {slope : α} {tried : α → Prop} {a : AcceptedStep α}
    (ha : Line.Settles ⟨s.x, s.direction, s.reply.value, slope, params⟩ tried s.reply.gradient calls
      a) :
    (⟨along s.x s.direction a.step, ⟨a.value, a.gradient⟩⟩ : Call α) ∈ calls ∧
      Scalar.isFinite a.value = true := by
  rcases ha with ⟨hc, hf, -⟩ | ⟨hlt, hstep, hvalue, hg⟩
  · exact ⟨hc, hf⟩
  · rw [hstep, hvalue, hg, hzero hlt s.x _ (by rw [h.length_x, h.length_direction])]
    exact ⟨h.called, h.finite⟩

theorem Stands.moved {n : Nat} {s : Descent α} (h : s.Stands n calls) (hsized : Sized n calls)
    (memory : Nat) {a : AcceptedStep α}
    (hc : (⟨along s.x s.direction a.step, ⟨a.value, a.gradient⟩⟩ : Call α) ∈ calls)
    (hf : Scalar.isFinite a.value = true) :
    s.advance memory s.direction a =
        .ok (s.moved memory s.direction a, norm (s.direction.map (a.step * ·))) ∧
      (s.moved memory s.direction a).Stands n calls := by
  have hx : (along s.x s.direction a.step).length = n := (length_along _ _ _).trans h.length_x
  have hlen : a.gradient.length = n := hsized _ hc hx
  refine ⟨advance_eq memory ?_ (hlen.trans h.length_x.symm), hx, hlen, hc, hf, rfl⟩
  rw [h.length_direction, h.length_x]

end Descent

namespace Minimum

/-- The outcome of a minimisation is a point with the reply that the objective gave there, and this
reply is finite unless the point is the start. -/
structure Stands (start : List α) (calls : List (Call α)) (m : Minimum α) : Prop where
  length_x : m.x.length = start.length
  called : (⟨m.x, ⟨m.value, m.gradient⟩⟩ : Call α) ∈ calls
  finite : Scalar.isFinite m.value = true ∨ m.x = start
  gradientNorm : m.gradientNorm = norm m.gradient

end Minimum

namespace Lbfgs

variable {start : List α}

theorem stands_finish {s : Descent α} (h : s.Stands start.length calls) (iterations : Nat)
    (termination : Termination) : (s.finish iterations termination).Stands start calls :=
  ⟨h.length_x, h.called, Or.inl h.finite, h.gradientNorm⟩

/-- A search leaves a minimisation where it stands, and a step that it settles on leads to a point
where it can stand as well. -/
theorem search_ensures {m : Lbfgs α} {n : Nat} {s : Descent α} {ends tried : α → Prop}
    (hrange : (s.line m).Range ends tried) (hfirst : (s.line m).Downhill → tried s.firstStep)
    (hadmits : ∀ point reply, admits point reply → point.length = n → reply.gradient.length = n)
    (hzero : (0 : α) < 0 → ∀ x d : List α, x.length = d.length → along x d 0 = x)
    (hs : s.Stands n calls) (hsized : Sized n calls) :
    (s.search m).Ensures admits (fun found calls' =>
      s.Stands n calls' ∧ Sized n calls' ∧ ∀ a, found = some a →
        (s.line m).Downhill ∧ (s.line m).Settles tried s.reply.gradient calls' a ∧
        s.advance m.memory s.direction a =
          .ok (s.moved m.memory s.direction a, norm (s.direction.map (a.step * ·))) ∧
        (s.moved m.memory s.direction a).Stands n calls') calls := by
  refine (strongWolfeStep_ensures rfl hrange hfirst).mono fun found calls' hsettles hold hnew => ?_
  have hs' := hs.mono hold
  have hsized' : Sized n calls' := fun c hc => (hnew c hc).elim (hsized c) (hadmits _ _)
  refine ⟨hs', hsized', fun a ha => ?_⟩
  obtain ⟨hdown, hsettle⟩ := hsettles a ha
  obtain ⟨hc, hf⟩ := hs'.called_of_settles hzero hsettle
  exact ⟨hdown, hsettle, hs'.moved hsized' m.memory hc hf⟩

theorem maintains_stands (m : Lbfgs α) {n : Nat}
    (hadmits : ∀ point reply, admits point reply → point.length = n → reply.gradient.length = n)
    (hzero : (0 : α) < 0 → ∀ x d : List α, x.length = d.length → along x d 0 = x) :
    m.Maintains admits fun s _ calls => s.Stands n calls ∧ Sized n calls := by
  intro s log calls ⟨hs, hsized⟩
  refine (search_ensures (s.line m).range_of_forall (fun _ => trivial) hadmits hzero hs
    hsized).mono fun found calls' h _ _ => ?_
  obtain ⟨hs', hsized', hfound⟩ := h
  cases found with
  | none => exact ⟨⟨hs'.1, hs'.2, hs'.3, hs'.4, hs'.5⟩, hsized'⟩
  | some a =>
    obtain ⟨-, -, hadvance, hmoved⟩ := hfound a rfl
    exact ⟨_, _, hadvance, hmoved, hsized'⟩

theorem stands_initial {n : Nat} (hn : start.length = n) {reply : Reply α}
    (hlen : reply.gradient.length = n) (husable : ¬Unusable reply) :
    (initial start reply).Stands n [⟨start, reply⟩] ∧ Sized n [⟨start, reply⟩] := by
  refine ⟨⟨hn, hlen, List.mem_cons_self, (not_unusable_iff.mp husable).1, rfl⟩, fun c hc _ => ?_⟩
  obtain rfl : c = ⟨start, reply⟩ := by simpa using hc
  exact hlen

/-- A minimisation ends at a point where the objective gave the reply that is reported, as long as
the gradients have the right length and there is room for the curvature pairs. -/
theorem minimize_ensures (m : Lbfgs α) (start : List α)
    (hadmits : ∀ point reply, admits point reply → point.length = start.length →
      reply.gradient.length = start.length)
    (hzero : (0 : α) < 0 → ∀ x d : List α, x.length = d.length → along x d 0 = x) :
    (m.minimize start).Ensures admits
      (fun result calls => ∃ first, ⟨start, first⟩ ∈ calls ∧
        m.Yields first (fun r => r.Stands start calls) result) [] := by
  rw [← map_minimizeRecorded, Dialogue.ensures_map]
  refine (minimizeRecorded_keeps (m.maintains_stands hadmits hzero)
    fun first hfirst husable => stands_initial rfl (hadmits _ _ hfirst rfl) husable).mono
    fun outcome calls hend _ _ => ?_
  obtain ⟨result, log⟩ := outcome
  obtain ⟨first, hend⟩ := hend
  refine ⟨first, hend.begins.mem List.mem_cons_self, hend.yields.mono fun r _ hr => ?_⟩
  cases hr with
  | unusable => exact ⟨rfl, hend.begins.mem List.mem_cons_self, Or.inr rfl, rfl⟩
  | finished _ hr =>
    obtain ⟨s, iterations, termination, rfl, -, hs, -⟩ := hr
    exact stands_finish hs iterations termination

theorem minimize_runWith (m : Lbfgs α) {start : List α} {objective : List α → Reply α}
    (hlen : ∀ point, point.length = start.length →
      (objective point).gradient.length = start.length)
    (hzero : (0 : α) < 0 → ∀ x d : List α, x.length = d.length → along x d 0 = x) :
    m.Yields (objective start) (fun r => r.x.length = start.length ∧
        objective r.x = ⟨r.value, r.gradient⟩ ∧ r.gradientNorm = norm r.gradient ∧
        (Scalar.isFinite r.value = true ∨ r.x = start))
      ((m.minimize start).runWith objective) := by
  have hensures : (m.minimize start).Ensures (FullGradient start.length)
      (fun result calls => ∃ first, ⟨start, first⟩ ∈ calls ∧
        m.Yields first (fun r => r.Stands start calls) result) [] :=
    minimize_ensures m start (fun _ _ h => h) hzero
  obtain ⟨calls, ⟨first, hfirst, hyields⟩, hreplies⟩ := hensures.runWith hlen (by simp)
  obtain rfl : first = objective start := hreplies _ hfirst
  exact hyields.mono fun r _ hr =>
    ⟨hr.length_x, (hreplies _ hr.called).symm, hr.gradientNorm, hr.finite⟩

end Lbfgs

end Autodiff
