import Mathlib.Data.Matrix.Mul
import Autodiff.Proofs.DescentDirections

namespace Autodiff

open Matrix

/-- The entries of a vector as a function of their positions. -/
def coordinates {α : Type} [Zero α] (n : Nat) (v : List α) : Fin n → α := fun i => v.getD i 0

section Exact

variable {α : Type} [ExactScalar α]

theorem ofFn_coordinates {n : Nat} {v : List α} (h : v.length = n) :
    List.ofFn (coordinates n v) = v := by
  refine List.ext_getElem (by simp [h]) fun i hi hi' => ?_
  simp [coordinates, hi']

theorem coordinates_cons (n : Nat) (x : α) (v : List α) :
    coordinates (n + 1) (x :: v) = Fin.cons x (coordinates n v) := by
  funext i
  cases i using Fin.cases with
  | zero => rfl
  | succ i => rfl

theorem dot_eq_dotProduct {n : Nat} {a b : List α} (ha : a.length = n) (hb : b.length = n) :
    dot a b = coordinates n a ⬝ᵥ coordinates n b := by
  induction n generalizing a b with
  | zero =>
    rw [List.eq_nil_of_length_eq_zero ha, dot_nil, dotProduct, Finset.univ_eq_empty,
      Finset.sum_empty]
  | succ n ih =>
    obtain ⟨x, a, rfl⟩ := List.exists_cons_of_length_eq_add_one ha
    obtain ⟨y, b, rfl⟩ := List.exists_cons_of_length_eq_add_one hb
    rw [dot_cons, ih (Nat.succ.inj ha) (Nat.succ.inj hb), dotProduct, dotProduct,
      Fin.sum_univ_succ]
    rfl

/-- Changing a vector by a multiple of another one. -/
theorem coordinates_adjust {f : α → α → α} {c : α} (hf : ∀ x y, f x y = x + c * y) {n : Nat}
    {a b : List α} (ha : a.length = n) (hb : b.length = n) :
    coordinates n (adjust f a b) = coordinates n a + c • coordinates n b := by
  induction n generalizing a b with
  | zero => exact Subsingleton.elim _ _
  | succ n ih =>
    obtain ⟨x, a, rfl⟩ := List.exists_cons_of_length_eq_add_one ha
    obtain ⟨y, b, rfl⟩ := List.exists_cons_of_length_eq_add_one hb
    rw [adjust, coordinates_cons, ih (Nat.succ.inj ha) (Nat.succ.inj hb), hf]
    funext i
    cases i using Fin.cases with
    | zero => rfl
    | succ i => rfl

theorem coordinates_scale (n : Nat) (c : α) (v : List α) :
    coordinates n (v.map (· * c)) = c • coordinates n v := by
  funext i
  have hget : (v.map (· * c)).getD i 0 = v.getD i 0 * c := by
    rw [List.getD_eq_getElem?_getD, List.getD_eq_getElem?_getD, List.getElem?_map]
    cases v[(i : Nat)]? with
    | none => exact (zero_mul c).symm
    | some x => rfl
  exact hget.trans (mul_comm _ _)

theorem coordinates_neg (n : Nat) (v : List α) :
    coordinates n (v.map (- ·)) = -coordinates n v := by
  have hscale : v.map (- ·) = v.map (· * (-1)) := by simp
  rw [hscale, coordinates_scale, neg_one_smul]

/-- The estimate of the inverse Hessian from curvature pairs, the newest first. It starts from a
multiple of the identity, and each pair corrects the estimate that the older ones have led to. -/
def inverseHessian (n : Nat) (gamma : α) : List (CurvaturePair α) → Matrix (Fin n) (Fin n) α
  | [] => gamma • 1
  | pair :: older =>
    let s := coordinates n pair.s
    let y := coordinates n pair.y
    (1 - pair.rho • vecMulVec s y) * inverseHessian n gamma older *
        (1 - pair.rho • vecMulVec y s) +
      pair.rho • vecMulVec s s

/-- The multiple of the identity that fits the newest pair. -/
def initialFactor : List (CurvaturePair α) → α
  | [] => 1
  | newest :: _ => dot newest.s newest.y / dot newest.y newest.y

/-- One correction, applied from the right to the left. -/
theorem inverseHessian_cons_mulVec (n : Nat) (gamma : α) (pair : CurvaturePair α)
    (older : List (CurvaturePair α)) (v : Fin n → α) :
    let s := coordinates n pair.s
    let y := coordinates n pair.y
    let a := pair.rho * (s ⬝ᵥ v)
    let r := inverseHessian n gamma older *ᵥ (v - a • y)
    inverseHessian n gamma (pair :: older) *ᵥ v = r + (a - pair.rho * (y ⬝ᵥ r)) • s := by
  intro s y a r
  have hright : (1 - pair.rho • vecMulVec y s) *ᵥ v = v - a • y := by
    rw [sub_mulVec, one_mulVec, smul_mulVec, vecMulVec_mulVec, op_smul_eq_smul, smul_smul]
  have hleft : (1 - pair.rho • vecMulVec s y) *ᵥ r = r - (pair.rho * (y ⬝ᵥ r)) • s := by
    rw [sub_mulVec, one_mulVec, smul_mulVec, vecMulVec_mulVec, op_smul_eq_smul, smul_smul]
  have hlast : (pair.rho • vecMulVec s s) *ᵥ v = a • s := by
    rw [smul_mulVec, vecMulVec_mulVec, op_smul_eq_smul, smul_smul]
  rw [inverseHessian, add_mulVec, ← mulVec_mulVec, ← mulVec_mulVec, hright, hleft, hlast, sub_smul]
  abel

end Exact

variable {α : Type} [OrderedScalar α] {n : Nat}

theorem CurvaturePair.Curved.rho_mul {p : CurvaturePair α} (h : p.Curved n) :
    p.rho * dot p.s p.y = 1 := by
  rw [h.rho, one_div, inv_mul_cancel₀ h.positive.ne']

/-- The change of the gradient over a step with positive curvature is not zero. -/
theorem CurvaturePair.Curved.change_pos {p : CurvaturePair α} (h : p.Curved n) :
    0 < dot p.y p.y := by
  refine dot_self_pos ?_
  by_contra hzero
  have hall : ∀ v ∈ p.y, v = 0 := by simpa using hzero
  have hnone : dot p.s p.y = 0 := (dot_comm _ _).trans (dot_eq_zero_of_forall hall p.s)
  exact h.positive.ne' hnone

theorem coordinates_initialScale {pairs : List (CurvaturePair α)} (h : ∀ p ∈ pairs, p.Curved n)
    (q : List α) :
    coordinates n (initialScale pairs q) = initialFactor pairs • coordinates n q := by
  cases pairs with
  | nil => exact (one_smul α _).symm
  | cons newest older =>
    have hcurved := h newest List.mem_cons_self
    have hgamma : 1 / (newest.rho * dot newest.y newest.y) = initialFactor (newest :: older) := by
      rw [initialFactor, hcurved.rho, one_div_mul_eq_div, one_div_div]
    rw [initialScale, if_pos hcurved.change_pos, hgamma, coordinates_scale]

/-- Going through the pairs in both directions is multiplying by the estimate. -/
theorem coordinates_applyPairs {scale : List α → List α} {gamma : α}
    (hlen : ∀ q, (scale q).length = q.length)
    (hscale : ∀ q, coordinates n (scale q) = gamma • coordinates n q)
    {pairs : List (CurvaturePair α)} (h : ∀ p ∈ pairs, p.Curved n) {q : List α}
    (hq : q.length = n) :
    coordinates n (applyPairs scale pairs q) =
      inverseHessian n gamma pairs *ᵥ coordinates n q := by
  induction pairs generalizing q with
  | nil =>
    rw [inverseHessian, smul_mulVec, one_mulVec]
    exact hscale q
  | cons pair older ih =>
    have hp := h pair List.mem_cons_self
    rw [inverseHessian_cons_mulVec, applyPairs]
    set a := pair.rho * dot pair.s q with ha
    set q' := adjust (fun qj yj => qj - a * yj) q pair.y with hq'
    have hq'len : q'.length = n := (length_adjust _ _ _).trans hq
    have hrlen : (applyPairs scale older q').length = n := (length_applyPairs hlen _ _).trans hq'len
    have hlower : coordinates n q' = coordinates n q - a • coordinates n pair.y := by
      rw [hq', coordinates_adjust (c := -a) (fun x y => by ring) hq hp.length_y, neg_smul,
        sub_eq_add_neg]
    have hrest := ih (fun p hp => h p (List.mem_cons_of_mem _ hp)) hq'len
    rw [← dot_eq_dotProduct hp.length_s hq, ← ha, ← hlower, ← hrest,
      ← dot_eq_dotProduct hp.length_y hrlen]
    exact coordinates_adjust (fun _ _ => rfl) hrlen hp.length_s

/-- The newest pair solves the secant equation: the estimate takes its change of the gradient back
to its step. -/
theorem inverseHessian_mulVec_newest {newest : CurvaturePair α} (h : newest.Curved n) (gamma : α)
    (older : List (CurvaturePair α)) :
    inverseHessian n gamma (newest :: older) *ᵥ coordinates n newest.y =
      coordinates n newest.s := by
  have hone : newest.rho * (coordinates n newest.s ⬝ᵥ coordinates n newest.y) = 1 := by
    rw [← dot_eq_dotProduct h.length_s h.length_y, h.rho_mul]
  rw [inverseHessian_cons_mulVec, hone, one_smul, sub_self, mulVec_zero, dotProduct_zero, mul_zero,
    sub_zero, one_smul, zero_add]

/-- The direction of a search is the negative of the gradient, multiplied by the estimate of the
inverse Hessian that belongs to the curvature pairs. If the gradient is the change that belongs to
the newest pair, the direction leads back over its step. -/
theorem searchDirection_eq_mulVec {pairs : List (CurvaturePair α)} (h : ∀ p ∈ pairs, p.Curved n) :
    (∀ gradient : List α, gradient.length = n → searchDirection gradient pairs =
      List.ofFn (-(inverseHessian n (initialFactor pairs) pairs *ᵥ coordinates n gradient))) ∧
    ∀ newest older, pairs = newest :: older →
      searchDirection newest.y pairs = newest.s.map (- ·) := by
  have hproduct (gradient : List α) (hg : gradient.length = n) : searchDirection gradient pairs =
      List.ofFn (-(inverseHessian n (initialFactor pairs) pairs *ᵥ coordinates n gradient)) := by
    have hlen : (searchDirection gradient pairs).length = n :=
      (length_searchDirection _ _).trans hg
    rw [← coordinates_applyPairs (length_initialScale pairs) (coordinates_initialScale h) h hg,
      ← coordinates_neg]
    exact (ofFn_coordinates hlen).symm
  refine ⟨hproduct, fun newest older heq => ?_⟩
  subst heq
  have hnewest := h newest List.mem_cons_self
  rw [hproduct _ hnewest.length_y, inverseHessian_mulVec_newest hnewest, ← coordinates_neg]
  exact ofFn_coordinates ((List.length_map _).trans hnewest.length_s)

/-- Two pairs in the plane, whose steps are not at right angles. -/
def slantedPairs : List (CurvaturePair ℚ) := [⟨[1, 1], [3, 1], 1 / 4⟩, ⟨[1, 0], [2, 1], 1 / 2⟩]

theorem searchDirection_eq_mulVec_slantedPairs : initialFactor slantedPairs = 2 / 5 ∧
    searchDirection [1, -2] slantedPairs =
      List.ofFn (-(inverseHessian 2 (2 / 5) slantedPairs *ᵥ coordinates 2 [1, -2])) ∧
    searchDirection [3, 1] slantedPairs = [-1, -1] := by
  have hcurved : ∀ p ∈ slantedPairs, p.Curved 2 := by
    intro p hp
    rcases List.mem_pair.mp hp with rfl | rfl
    · exact ⟨rfl, rfl, by decide +kernel, by decide +kernel⟩
    · exact ⟨rfl, rfl, by decide +kernel, by decide +kernel⟩
  have hfactor : initialFactor slantedPairs = 2 / 5 := by decide +kernel
  obtain ⟨hproduct, hsecant⟩ := searchDirection_eq_mulVec hcurved
  exact ⟨hfactor, hfactor ▸ hproduct [1, -2] rfl, hsecant _ _ rfl⟩

end Autodiff
