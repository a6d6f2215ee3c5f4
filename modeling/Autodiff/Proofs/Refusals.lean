import Autodiff.Proofs.Substitution
import Autodiff.Proofs.TapeAgreement

namespace Autodiff

variable {α β γ σ ε : Type}

/-- The kinds of refusals. -/
inductive Refusal where
  | lengthMismatch
  | unboundVariable
  | duplicateVariable
  | foreignNode
  | parameterMismatch
  | powerDomain
  | logDomain
  deriving DecidableEq

def Error.refusal : Error α → Refusal
  | .lengthMismatch _ _ => .lengthMismatch
  | .unboundVariable _ => .unboundVariable
  | .duplicateVariable _ => .duplicateVariable
  | .foreignNode _ _ => .foreignNode
  | .parameterMismatch _ _ => .parameterMismatch
  | .powerDomain _ _ => .powerDomain
  | .logDomain _ => .logDomain

/-- A call has an answer or is refused for one of the given reasons. It breaks no promise. -/
def Safe (reasons : List Refusal) : Except (Failure α) β → Prop
  | .ok _ => True
  | .error (.refused e) => e.refusal ∈ reasons
  | .error (.fault _) => False

/-- The answer of an action, without the state that it leaves. -/
def answerOf : EStateM.Result ε σ β → Except ε β
  | .ok x _ => .ok x
  | .error e _ => .error e

section

variable {reasons more : List Refusal} {r : Except (Failure α) β}

theorem Safe.mono (h : Safe reasons r) (hsub : reasons ⊆ more) : Safe more r := by
  match r, h with
  | .ok _, _ => trivial
  | .error (.refused _), h => exact hsub h

/-- Whether a failure is safe does not depend on what the call would have answered. -/
theorem Safe.failure {cause : Failure α} (h : Safe reasons (.error cause : Except (Failure α) β)) :
    Safe reasons (.error cause : Except (Failure α) γ) := by
  match cause, h with
  | .refused _, h => exact h

theorem Safe.bind {f : β → Except (Failure α) γ} (h : Safe reasons r)
    (hf : ∀ x, r = .ok x → Safe reasons (f x)) : Safe reasons (r >>= f) := by
  cases r with
  | ok x => exact hf x rfl
  | error cause => exact h.failure

theorem Safe.mapM {f : β → Except (Failure α) γ} {xs : List β}
    (h : ∀ x ∈ xs, Safe reasons (f x)) : Safe reasons (xs.mapM f) := by
  induction xs with
  | nil => trivial
  | cons x xs ih =>
    rw [List.mapM_cons]
    refine (h x (by simp)).bind fun y _ => (ih fun z hz => h z (by simp [hz])).bind fun _ _ => ?_
    trivial

end

/-- Why a node may have no value at a point that fits. -/
def domainReasons : List Refusal := [.powerDomain, .logDomain]

/-- Why variables or the root may not belong to a graph. -/
def bindingReasons : List Refusal := [.foreignNode, .duplicateVariable]

def compileReasons : List Refusal := .unboundVariable :: bindingReasons

def tapeReasons : List Refusal := [.lengthMismatch, .parameterMismatch] ++ domainReasons

namespace Graph

variable [Scalar α]

end Graph

namespace Sweep

variable [Scalar α]

/-- A complete sweep has a gradient. -/
theorem Complete.gradient_exists {g : Graph α} {vars : List Var} {point : List α} {s : Sweep α}
    (hc : s.Complete g vars point) : ∃ partials, s.gradient g vars.length = .ok partials := by
  obtain ⟨partials, -, hgradient, -⟩ := gradient_spec hc
  exact ⟨partials.toList, hgradient⟩

end Sweep

namespace Graph

variable [Scalar α] (g : Graph α) (root : Expr) (vars : List Var) (point : List α)

theorem compileParametric_safe (params : List Var) :
    Safe compileReasons (g.compileParametric root vars params) := by
  rcases g.compileParametric_cases root vars params with
    ⟨t, order, l, hc, -⟩ | ⟨id, order, hc, -⟩ | ⟨e, hc, ⟨k, rfl⟩ | ⟨id, rfl⟩, -⟩
  · rw [hc]
    trivial
  · rw [hc]
    simp [Safe, Error.refusal, compileReasons]
  · rw [hc]
    simp [Safe, Error.refusal, compileReasons, bindingReasons]
  · rw [hc]
    simp [Safe, Error.refusal, compileReasons, bindingReasons]

end Graph

namespace Tape

variable {t : Tape α} {g : Graph α} {root : Expr} {order : List Nat} {vars params : List Var}
  {l : Layout α}

theorem checkLengths_cases (t : Tape α) (x p : List α) :
    (x.length = t.inputs ∧ p.length = t.params) ∨
      ∃ e, t.checkLengths x p = .error (.refused e) ∧ e.refusal ∈ tapeReasons := by
  by_cases hx : x.length = t.inputs
  · by_cases hp : p.length = t.params
    · exact .inl ⟨hx, hp⟩
    · refine .inr ⟨.parameterMismatch t.params p.length, ?_, by simp [Error.refusal, tapeReasons]⟩
      simp only [checkLengths, hx, ne_eq, not_true_eq_false, ↓reduceIte, hp, not_false_eq_true]
  · refine .inr ⟨.lengthMismatch t.inputs x.length, ?_, by simp [Error.refusal, tapeReasons]⟩
    simp only [checkLengths, ne_eq, hx, not_false_eq_true, ↓reduceIte]

variable [Scalar α]

/-- What does not fit is refused before the buffers are touched. -/
theorem onValues_forward_unfit {x p : List α} {e : Error α}
    (h : t.checkLengths x p = .error (.refused e)) (scratch : Scratch α) :
    Evaluating.onValues (t.forward x p) scratch = .error (.refused e) scratch := by
  have hforward : t.forward x p scratch.values = .error (.refused e) scratch.values := by
    simp only [forward, h]
    rfl
  rw [onValues_forward_eq, hforward]

end Tape

end Autodiff
