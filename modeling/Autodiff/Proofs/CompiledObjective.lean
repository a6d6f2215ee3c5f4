import Autodiff.Proofs.TapeAgreement
import Autodiff.Dialogue

namespace Autodiff

/-- The tests of numbers that the methods rely on. -/
class SoundTests (α : Type) [Scalar α] : Prop where
  isFinite_nan : Scalar.isFinite (Scalar.nan : α) = false
  not_zero_lt_zero : ¬(0 : α) < 0

instance : SoundTests Float where
  isFinite_nan := by decide
  not_zero_lt_zero := by decide

instance : SoundTests Float32 where
  isFinite_nan := by decide
  not_zero_lt_zero := by decide

variable {α : Type} [Scalar α] {g : Graph α} {root : Expr} {order : List Nat}
  {vars params : List Var} {l : Layout α} {t : Tape α} {x p : List α}

namespace Tape

/-- What does not fit is turned away before the sweep. -/
theorem forward_of_unfit (h : ¬(x.length = t.inputs ∧ p.length = t.params)) :
    ∃ e, ∀ values, t.forward x p values = .error e values := by
  have hwrong {e : Failure α} (he : t.checkLengths x p = .error e) (values : Array α) :
      t.forward x p values = .error e values := by
    simp only [forward, he]
    rfl
  by_cases hx : x.length = t.inputs
  · have hp : p.length ≠ t.params := fun hp => h ⟨hx, hp⟩
    exact ⟨_, hwrong (by rw [checkLengths, if_neg (not_not.mpr hx), if_pos hp])⟩
  · exact ⟨_, hwrong (by rw [checkLengths, if_pos hx])⟩

/-- A tape answers only where it is given as many values as it has variables and parameters. -/
theorem lengths_of_evaluateParametric {y : α × List α} (h : t.evaluateParametric x p = .ok y) :
    x.length = t.inputs ∧ p.length = t.params := by
  by_contra hlengths
  obtain ⟨e, hforward⟩ := forward_of_unfit hlengths
  have hfails : t.evaluateParametric x p = .error e := by
    simp only [evaluateParametric, Evaluating.fresh, EStateM.run, evaluateWith, bind, EStateM.bind,
      onValues_forward_eq, hforward]
  cases h.symm.trans hfails

theorem lengths_of_valueParametric {y : α} (h : t.valueParametric x p = .ok y) :
    x.length = t.inputs ∧ p.length = t.params := by
  by_contra hlengths
  obtain ⟨e, hforward⟩ := forward_of_unfit hlengths
  have hfails : t.valueParametric x p = .error e := by
    simp only [valueParametric, Evaluating.fresh, EStateM.run, valueWith, bind, EStateM.bind,
      onValues_forward_eq, hforward]
  cases h.symm.trans hfails

theorem Renders.length_reply (h : t.Renders g root order vars params l)
    (hx : x.length = vars.length) (hp : p.length = params.length) :
    (t.reply p x).gradient.length = x.length := by
  rw [reply, h.evaluateParametric_eq hx hp, Graph.answer]
  split
  next => exact List.length_replicate
  next => rw [Reply.ofTerm, List.length_map, hx]

/-- A finite reply comes from an evaluation. -/
theorem evaluateParametric_of_isFinite [SoundTests α]
    (hf : Scalar.isFinite (t.reply p x).value = true) :
    t.evaluateParametric x p = .ok ((t.reply p x).value, (t.reply p x).gradient) := by
  unfold reply at hf ⊢
  cases hr : t.evaluateParametric x p with
  | ok y => rfl
  | error e =>
    rw [hr, Reply.ofTerm, Reply.undefined, SoundTests.isFinite_nan] at hf
    cases hf

/-- Where the tape of an expression answers, the expression has a value. -/
theorem Renders.evaluate_eq_ok (h : t.Renders g root order vars params l)
    (ho : g.reachable root = .ok order) {y : α × List α}
    (hy : t.evaluateParametric x p = .ok y) :
    g.evaluate root (vars ++ params) (x ++ p) = .ok y.1 := by
  obtain ⟨hx, hp⟩ := lengths_of_evaluateParametric hy
  have hx' := hx.trans h.inputs
  have hp' := hp.trans h.params
  have hlen : (vars ++ params).length = (x ++ p).length := by
    rw [List.length_append, List.length_append, hx', hp']
  rw [h.evaluateParametric_eq hx' hp', Graph.answer_eq_ok] at hy
  rw [Graph.evaluate_eq hlen ho h.binds, Graph.answer_eq_ok]
  exact ⟨hy.1, congrArg Prod.fst hy.2⟩

end Tape

end Autodiff
