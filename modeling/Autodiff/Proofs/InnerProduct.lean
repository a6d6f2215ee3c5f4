import Autodiff.Proofs.OrderedArithmetic
import Autodiff.Points

namespace Autodiff

section Exact

variable {α : Type} [ExactScalar α]

theorem dot_eq_sum (a b : List α) : dot a b = (List.zipWith (· * ·) a b).sum :=
  List.sum_eq_foldl.symm

theorem dot_nil (b : List α) : dot [] b = 0 := rfl

theorem dot_cons (x y : α) (a b : List α) : dot (x :: a) (y :: b) = x * y + dot a b := by
  simp only [dot_eq_sum, List.zipWith_cons_cons, List.sum_cons]

theorem dot_map {β : Type} (f t : β → α) (xs : List β) :
    dot (xs.map f) (xs.map t) = (xs.map fun x => f x * t x).sum := by
  rw [dot_eq_sum, List.zipWith_map, List.zipWith_self]

theorem dot_zeros (n : Nat) (b : List α) : dot (List.replicate n 0) b = 0 := by
  induction n generalizing b with
  | zero => rfl
  | succ n ih =>
    cases b with
    | nil => rfl
    | cons y b => rw [List.replicate_succ, dot_cons, ih, zero_mul, zero_add]

theorem dot_comm (a b : List α) : dot a b = dot b a := by
  rw [dot_eq_sum, dot_eq_sum, List.zipWith_comm_of_comm mul_comm]

theorem dot_neg (a b : List α) : dot a (b.map (- ·)) = -dot a b := by
  induction a generalizing b with
  | nil => exact neg_zero.symm
  | cons x a ih =>
    cases b with
    | nil => exact neg_zero.symm
    | cons y b => rw [List.map_cons, dot_cons, dot_cons, ih, mul_neg, neg_add]

theorem dot_scale (c : α) (a b : List α) : dot a (b.map (· * c)) = dot a b * c := by
  induction a generalizing b with
  | nil => exact (zero_mul c).symm
  | cons x a ih =>
    cases b with
    | nil => exact (zero_mul c).symm
    | cons y b => rw [List.map_cons, dot_cons, dot_cons, ih, add_mul, mul_assoc]

/-- The inner product with a vector to which a multiple of another one was added. -/
theorem dot_adjust {f : α → α → α} {c : α} (hf : ∀ x y, f x y = x + c * y) (v : List α)
    {a b : List α} (h : b.length ≤ a.length) : dot v (adjust f a b) = dot v a + c * dot v b := by
  induction v generalizing a b with
  | nil => simp [dot_nil]
  | cons z v ih =>
    cases b with
    | nil =>
      have hzero : dot (z :: v) ([] : List α) = 0 := rfl
      rw [hzero, mul_zero, add_zero]
      cases a with
      | nil => rfl
      | cons x a => rfl
    | cons y b =>
      cases a with
      | nil => exact absurd h (Nat.not_succ_le_zero _)
      | cons x a =>
        rw [adjust, dot_cons, dot_cons, dot_cons, ih (Nat.le_of_succ_le_succ h), hf]
        ring

/-- Nothing is left of the inner product with a vector of zeros. -/
theorem dot_eq_zero_of_forall {a : List α} (h : ∀ v ∈ a, v = 0) (b : List α) : dot a b = 0 := by
  rw [List.eq_replicate_of_mem h, dot_zeros]

end Exact

variable {α : Type} [OrderedScalar α]

theorem dot_self_nonneg (a : List α) : 0 ≤ dot a a := by
  induction a with
  | nil => exact le_refl (0 : α)
  | cons x a ih =>
    rw [dot_cons]
    exact add_nonneg (mul_self_nonneg x) ih

theorem dot_self_pos {a : List α} (h : ∃ v ∈ a, v ≠ 0) : 0 < dot a a := by
  induction a with
  | nil => simp at h
  | cons x a ih =>
    rw [dot_cons]
    by_cases hx : x = 0
    · subst hx
      rw [mul_zero, zero_add]
      exact ih (by simpa using h)
    · exact add_pos_of_pos_of_nonneg (mul_self_pos.mpr hx) (dot_self_nonneg a)

end Autodiff
