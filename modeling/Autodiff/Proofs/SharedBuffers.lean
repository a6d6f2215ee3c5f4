import Mathlib.Logic.Function.Basic
import Autodiff.Proofs.Refusals

namespace Autodiff

variable {α β γ ε ι : Type}

/-- An evaluation has the same answer in any buffers. -/
def Evaluating.Steady (act : Evaluating α β) : Prop := ∀ scratch, answerOf (act scratch) = act.fresh

namespace Evaluating

theorem fresh_eq (act : Evaluating α β) : act.fresh = answerOf (act {}) := by
  simp only [fresh, EStateM.run]
  cases act {} with
  | ok x scratch => rfl
  | error e scratch => rfl

/-- One answer for all buffers is also the one in new buffers. -/
theorem steady_of_answer {act : Evaluating α β} {r : Except (Failure α) β}
    (h : ∀ scratch, answerOf (act scratch) = r) : act.Steady ∧ act.fresh = r := by
  have hfresh : act.fresh = r := (fresh_eq act).trans (h {})
  exact ⟨fun scratch => (h scratch).trans hfresh.symm, hfresh⟩

theorem answerOf_map (act : Evaluating α β) (f : β → γ) (scratch : Scratch α) :
    answerOf ((f <$> act) scratch) = (answerOf (act scratch)).map f := by
  simp only [Functor.map, EStateM.map]
  cases act scratch with
  | ok x scratch' => rfl
  | error e scratch' => rfl

theorem Steady.map {act : Evaluating α β} (h : act.Steady) (f : β → γ) :
    (f <$> act).Steady ∧ (f <$> act).fresh = act.fresh.map f := by
  refine steady_of_answer fun scratch => ?_
  rw [answerOf_map, h scratch]

/-- Steady evaluations that follow one another in the same buffers, up to the first that fails. -/
theorem answerOf_mapM {f : γ → Evaluating α β} (hf : ∀ x, (f x).Steady) (xs : List γ)
    (scratch : Scratch α) : answerOf (xs.mapM f scratch) = xs.mapM fun x => (f x).fresh := by
  induction xs generalizing scratch with
  | nil => rfl
  | cons x xs ih =>
    have hx := hf x scratch
    rw [List.mapM_cons, List.mapM_cons, ← hx]
    simp only [bind, EStateM.bind]
    cases f x scratch with
    | error e scratch' => rfl
    | ok y scratch' =>
      have hrest := ih scratch'
      simp only [answerOf, Except.bind, ← hrest]
      cases xs.mapM f scratch' with
      | ok ys scratch'' => rfl
      | error e scratch'' => rfl

end Evaluating

namespace Tape

variable [Scalar α]

/-- Loading keeps nothing of what a buffer held. -/
theorem load_eq (t : Tape α) (point params : List α) (buffer : Array α) :
    t.load point params buffer = t.load point params #[] := by
  apply Array.toList_inj.mp
  rw [toList_load, toList_load]

/-- The adjoints start from zeros, whatever their buffer held. -/
theorem reverse_eq (t : Tape α) (values buffer : Array α) :
    t.reverse values buffer = t.reverse values #[] := by
  simp [reverse]

/-- A forward sweep that is not refused fills a buffer with the same values or fails the same way,
and one that is refused does not touch the buffer. -/
theorem onValues_forward_cases (t : Tape α) (point params : List α) :
    (∃ e, ∀ scratch, Evaluating.onValues (t.forward point params) scratch = .error e scratch) ∨
    (∃ e values, ∀ scratch, Evaluating.onValues (t.forward point params) scratch =
      .error e { scratch with values }) ∨
    ∃ values, ∀ scratch, Evaluating.onValues (t.forward point params) scratch =
      .ok () { scratch with values } := by
  rcases t.checkLengths_cases point params with ⟨hx, hp⟩ | ⟨e, he, -⟩
  · have hsame (buffer : Array α) : t.forward point params buffer = t.forward point params #[] := by
      rw [forward_of_lengths hx hp, forward_of_lengths hx hp, load_eq]
    cases hrun : t.forward point params #[] with
    | ok u values =>
      refine .inr (.inr ⟨values, fun scratch => ?_⟩)
      rw [onValues_forward_eq, hsame, hrun]
    | error e values =>
      refine .inr (.inl ⟨e, values, fun scratch => ?_⟩)
      rw [onValues_forward_eq, hsame, hrun]
  · exact .inl ⟨_, onValues_forward_unfit he⟩

/-- Whatever earlier evaluations left in the buffers, a tape has the value and the gradient that it
has in new ones. -/
theorem evaluateWith_steady (t : Tape α) (point params : List α) :
    (t.evaluateWith point params).Steady := by
  intro scratch
  rw [Evaluating.fresh_eq]
  simp only [evaluateWith, bind, EStateM.bind]
  rcases t.onValues_forward_cases point params with ⟨e, h⟩ | ⟨e, values, h⟩ | ⟨values, h⟩
  · rw [h, h]
    rfl
  · rw [h, h]
    rfl
  · rw [h, h]
    simp only [t.reverse_eq values scratch.adjoints]
    cases fetch (α := α) values t.output with
    | error e => rfl
    | ok value =>
      cases t.reverse values #[] with
      | error e => rfl
      | ok adjoints => rfl

theorem valueWith_steady (t : Tape α) (point params : List α) :
    (t.valueWith point params).Steady := by
  intro scratch
  rw [Evaluating.fresh_eq]
  simp only [valueWith, bind, EStateM.bind]
  rcases t.onValues_forward_cases point params with ⟨e, h⟩ | ⟨e, values, h⟩ | ⟨values, h⟩
  · rw [h, h]
    rfl
  · rw [h, h]
    rfl
  · rw [h, h]
    dsimp only
    cases fetch (α := α) values t.output with
    | error e => rfl
    | ok value => rfl

end Tape

section Calls

variable [Scalar α]

/-- A call that evaluates a tape. The gradient is a part of the answer of the first three kinds. -/
inductive TapeCall (α : Type) where
  | evaluate (t : Tape α) (point : List α)
  | evaluateParametric (t : Tape α) (point params : List α)
  | evaluateWith (t : Tape α) (point params : List α)
  | value (t : Tape α) (point : List α)
  | valueParametric (t : Tape α) (point params : List α)

namespace TapeCall

/-- The call in buffers that other calls have used before. -/
def act : TapeCall α → Evaluating α (α × Option (List α))
  | .evaluate t point => (fun r => (r.1, some r.2)) <$> t.evaluateWith point []
  | .evaluateParametric t point params
  | .evaluateWith t point params => (fun r => (r.1, some r.2)) <$> t.evaluateWith point params
  | .value t point => (fun v => (v, none)) <$> t.valueWith point []
  | .valueParametric t point params => (fun v => (v, none)) <$> t.valueWith point params

/-- The call on its own, in new buffers. -/
def alone : TapeCall α → Except (Failure α) (α × Option (List α))
  | .evaluate t point => (t.evaluate point).map fun r => (r.1, some r.2)
  | .evaluateParametric t point params =>
    (t.evaluateParametric point params).map fun r => (r.1, some r.2)
  | .evaluateWith t point params =>
    (t.evaluateWith point params).fresh.map fun r => (r.1, some r.2)
  | .value t point => (t.value point).map fun v => (v, none)
  | .valueParametric t point params => (t.valueParametric point params).map fun v => (v, none)

theorem answerOf_act (call : TapeCall α) (scratch : Scratch α) :
    answerOf (call.act scratch) = call.alone := by
  cases call with
  | evaluate t point =>
    rw [act, Evaluating.answerOf_map, t.evaluateWith_steady point [] scratch]
    rfl
  | evaluateParametric t point params
  | evaluateWith t point params =>
    rw [act, Evaluating.answerOf_map, t.evaluateWith_steady point params scratch]
    rfl
  | value t point => rw [act, Evaluating.answerOf_map, t.valueWith_steady point [] scratch]; rfl
  | valueParametric t point params =>
    rw [act, Evaluating.answerOf_map, t.valueWith_steady point params scratch]
    rfl

/-- Makes calls one after another, each in one of several pairs of buffers, and a call that fails
leaves its buffers to the next as they are. Among the pairs are those that belong to a thread. -/
def performAll [DecidableEq ι] : List (ι × TapeCall α) → (ι → Scratch α) →
    List (Except (Failure α) (α × Option (List α))) × (ι → Scratch α)
  | [], buffers => ([], buffers)
  | (i, call) :: rest, buffers =>
    match call.act (buffers i) with
    | .ok answer scratch =>
      let (answers, left) := performAll rest (Function.update buffers i scratch)
      (.ok answer :: answers, left)
    | .error cause scratch =>
      let (answers, left) := performAll rest (Function.update buffers i scratch)
      (.error cause :: answers, left)

theorem answers_eq_map_alone [DecidableEq ι] (calls : List (ι × TapeCall α))
    (buffers : ι → Scratch α) :
    (performAll calls buffers).1 = calls.map fun call => call.2.alone := by
  induction calls generalizing buffers with
  | nil => rfl
  | cons first rest ih =>
    obtain ⟨i, call⟩ := first
    have hcall := call.answerOf_act (buffers i)
    rw [List.map_cons, ← hcall, performAll]
    cases call.act (buffers i) with
    | ok answer scratch => exact congrArg (_ :: ·) (ih _)
    | error cause scratch => exact congrArg (_ :: ·) (ih _)

end TapeCall

end Calls

section Batches

/-- What is relied on where answers that were found side by side are put together: all results stay
in order, and a failure is one of those that were met. -/
structure CollectsInOrder (collect : List (Except ε β) → Except ε (List β)) : Prop where
  results : ∀ answers results, collect answers = .ok results → answers = results.map .ok
  failure : ∀ answers e, collect answers = .error e → .error e ∈ answers

theorem collectsInOrder_sequential :
    CollectsInOrder fun answers : List (Except ε β) => answers.mapM id where
  results answers results h := by
    have hall := forall₂_of_mapM h
    have hmap : results.map Except.ok = answers.map id :=
      map_eq_of_forall₂ hall fun x y hxy => hxy.symm
    rw [hmap, List.map_id]
  failure answers e h := by
    obtain ⟨before, answer, after, rfl, -, rfl⟩ := mapM_eq_error_iff.mp h
    simp

variable [Scalar α]

/-- Value and gradient at each point, where every point is evaluated in the buffers of the worker
that takes it. -/
def Tape.evaluateSpread (t : Tape α)
    (collect : List (Except (Failure α) (α × List α)) → Except (Failure α) (List (α × List α)))
    (buffers : Nat → Scratch α) (points : List (List α)) : Except (Failure α) (List (α × List α)) :=
  collect (points.mapIdx fun i point => answerOf (t.evaluateWith point [] (buffers i)))

theorem Tape.evaluateBatch_eq (t : Tape α) (points : List (List α)) :
    t.evaluateBatch points = t.evaluateEach points := by
  have hsteady (point : List α) := t.evaluateWith_steady point []
  rw [evaluateBatch, Evaluating.fresh_eq, Evaluating.answerOf_mapM hsteady]
  rfl

theorem Tape.evaluateSpread_eq (t : Tape α)
    (collect : List (Except (Failure α) (α × List α)) → Except (Failure α) (List (α × List α)))
    (buffers : Nat → Scratch α) (points : List (List α)) :
    t.evaluateSpread collect buffers points = collect (points.map t.evaluate) := by
  have hsteady (i : Nat) (point : List α) :
      answerOf (t.evaluateWith point [] (buffers i)) = t.evaluate point :=
    t.evaluateWith_steady point [] (buffers i)
  have hanswers : (points.mapIdx fun _ point => t.evaluate point) = points.map t.evaluate := by
    apply List.ext_getElem?
    intro i
    rw [List.getElem?_mapIdx, List.getElem?_map]
  simp only [evaluateSpread, hsteady, hanswers]

/-- Evaluating points one after another is one way to put their answers together. -/
theorem Tape.evaluateSpread_sequential (t : Tape α) (buffers : Nat → Scratch α)
    (points : List (List α)) :
    t.evaluateSpread (fun answers => answers.mapM id) buffers points = t.evaluateEach points := by
  rw [t.evaluateSpread_eq, List.mapM_map]
  rfl

end Batches

/-- Evaluations leave no residue: a call answers what it answers in new buffers, whatever calls to
whatever tapes have worked in its buffers before, and wherever these have failed. A batch has the
answers of its points, or the failure of the first point that has no answer. If its points are
spread over workers, it has the same answers, or the failure of some point. -/
theorem evaluations_leave_no_residue [Scalar α] [DecidableEq ι] :
    (∀ (calls : List (ι × TapeCall α)) (buffers : ι → Scratch α),
      (TapeCall.performAll calls buffers).1 = calls.map fun call => call.2.alone) ∧
    ∀ (t : Tape α) (points : List (List α)),
      (∀ results, t.evaluateBatch points = .ok results ↔
        List.Forall₂ (fun point r => t.evaluate point = .ok r) points results) ∧
      (∀ e, t.evaluateBatch points = .error e ↔ ∃ before point after,
        points = before ++ point :: after ∧ (∀ q ∈ before, ∃ r, t.evaluate q = .ok r) ∧
          t.evaluate point = .error e) ∧
      ∀ collect buffers, CollectsInOrder collect →
        (∀ results, t.evaluateSpread collect buffers points = .ok results ↔
          List.Forall₂ (fun point r => t.evaluate point = .ok r) points results) ∧
        ∀ e, t.evaluateSpread collect buffers points = .error e →
          ∃ point ∈ points, t.evaluate point = .error e := by
  refine ⟨TapeCall.answers_eq_map_alone, fun t points => ⟨fun results => ?_, fun e => ?_, ?_⟩⟩
  · rw [t.evaluateBatch_eq]
    exact mapM_eq_ok_iff
  · rw [t.evaluateBatch_eq]
    exact mapM_eq_error_iff
  intro collect buffers hcollect
  rw [t.evaluateSpread_eq]
  have hfailure : ∀ e, collect (points.map t.evaluate) = .error e →
      ∃ point ∈ points, t.evaluate point = .error e := by
    intro e he
    obtain ⟨point, hpoint, heval⟩ := List.mem_map.mp (hcollect.failure _ e he)
    exact ⟨point, hpoint, heval⟩
  refine ⟨fun results => ?_, hfailure⟩
  have hforall : List.Forall₂ (fun point r => t.evaluate point = .ok r) points results ↔
      points.map t.evaluate = results.map .ok := by
    rw [← List.forall₂_eq_eq_eq, List.forall₂_map_left_iff, List.forall₂_map_right_iff]
  rw [hforall]
  refine ⟨hcollect.results _ results, fun hall => ?_⟩
  cases hanswer : collect (points.map t.evaluate) with
  | ok results' =>
    have hsame := (hcollect.results _ _ hanswer).symm.trans hall
    have hinj : Function.Injective (Except.ok : α × List α → Except (Failure α) _) :=
      fun _ _ h => Except.ok.inj h
    rw [hinj.list_map hsame]
  | error e =>
    -- Every answer is a result, so that no failure was met.
    have hmem := hcollect.failure _ e hanswer
    rw [hall] at hmem
    obtain ⟨r, -, hr⟩ := List.mem_map.mp hmem
    cases hr

/-- A logarithm, and a product of a variable and a parameter. -/
def logarithmTape : Tape Float := ⟨#[.input, .unary .log 0], #[], 1, 0, 1⟩

def productTape : Tape Float := ⟨#[.input, .input, .binary .multiply 0 1], #[], 1, 1, 2⟩

theorem evaluations_leave_no_residue_logarithm :
    (TapeCall.performAll [((), .evaluate logarithmTape [-1]),
      ((), .evaluateWith productTape [3] [4]), ((), .value productTape [3])]
        fun _ => ⟨#[5], #[7, 7, 7, 7]⟩).1 =
        [.error (.refused (.logDomain (-1))), .ok (12, some [4]),
          .error (.refused (.parameterMismatch 1 0))] ∧
    logarithmTape.evaluateBatch [[-1], [-2]] = .error (.refused (.logDomain (-1))) ∧
    CollectsInOrder (fun answers : List (Except (Failure Float) (Float × List Float)) =>
      answers.mapM id) ∧
    ∃ point ∈ [[-1], [-2]], logarithmTape.evaluate point = .error (.refused (.logDomain (-1))) := by
  obtain ⟨hcalls, hbatches⟩ := evaluations_leave_no_residue (α := Float) (ι := Unit)
  obtain ⟨-, hfirst, hspread⟩ := hbatches logarithmTape [[-1], [-2]]
  have hrefused : logarithmTape.evaluate [-1] = .error (.refused (.logDomain (-1))) := by
    decide +kernel
  have hbatch : logarithmTape.evaluateBatch [[-1], [-2]] =
      .error (.refused (.logDomain (-1))) := (hfirst _).mpr ⟨[], _, _, rfl, nofun, hrefused⟩
  refine ⟨(hcalls _ _).trans (by decide +kernel), hbatch, collectsInOrder_sequential, ?_⟩
  refine (hspread _ (fun _ => ⟨#[5], #[]⟩) collectsInOrder_sequential).2 _ ?_
  rw [Tape.evaluateSpread_sequential, ← Tape.evaluateBatch_eq, hbatch]

end Autodiff
