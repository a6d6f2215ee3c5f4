import Autodiff.Proofs.InnerProduct

namespace Autodiff

/-- Comparable with itself, as all numbers are but the undefined one. -/
def Scalar.IsDefined {α : Type} [Scalar α] (a : α) : Prop := a ≤ a

open Scalar (IsDefined)

/-- What rounding leaves of the laws of ordered arithmetic. The defined numbers are in order, the
results of defined operations have defined operands, and their signs are those of the exact
results. Adding what is not positive does not lead upwards. -/
class RoundedScalar (α : Type) [Scalar α] : Prop where
  le_trans (a b c : α) : a ≤ b → b ≤ c → a ≤ c
  lt_iff (a b : α) : a < b ↔ IsDefined a ∧ IsDefined b ∧ ¬b ≤ a
  le_of_lt (a b : α) : a < b → a ≤ b
  defined_of_le (a b : α) : a ≤ b → IsDefined a ∧ IsDefined b
  defined_of_isNaN (a : α) : Scalar.isNaN a = false → IsDefined a
  defined_of_isFinite (a : α) : Scalar.isFinite a = true → IsDefined a
  defined_of_add (a b : α) : IsDefined (a + b) → IsDefined a ∧ IsDefined b
  defined_of_sub (a b : α) : IsDefined (a - b) → IsDefined a ∧ IsDefined b
  defined_of_mul (a b : α) : IsDefined (a * b) → IsDefined a ∧ IsDefined b
  defined_of_div (a b : α) : IsDefined (a / b) → IsDefined a ∧ IsDefined b
  add_defined (a b : α) : IsDefined a → IsDefined b → ¬a < 0 → ¬b < 0 → IsDefined (a + b)
  mul_defined (a b : α) : IsDefined a → 0 < b → b < 1 → IsDefined (a * b)
  add_nonneg (a b : α) : ¬a < 0 → ¬b < 0 → ¬a + b < 0
  sub_nonneg (a b : α) : ¬b < a → ¬b - a < 0
  mul_nonneg (a b : α) : ¬a < 0 → ¬b < 0 → ¬a * b < 0
  mul_nonpos (a b : α) : ¬a < 0 → b < 0 → ¬0 < a * b
  div_nonneg (a b : α) : ¬a < 0 → 0 < b → ¬a / b < 0
  one_div_norm (v : List α) : ¬1 / norm v < 0
  zero_lt_one : (0 : α) < 1
  zero_lt_two : (0 : α) < Scalar.two
  zero_lt_tenth : (0 : α) < Scalar.ratio 1 10
  tenth_lt_one : (Scalar.ratio 1 10 : α) < 1
  le_of_le_add (a b c : α) : Scalar.isFinite b = true → ¬0 < c → a ≤ b + c → a ≤ b

namespace RoundedScalar

variable {α : Type} [Scalar α] [RoundedScalar α] {a b c : α}

theorem not_lt_of_le (h : b ≤ a) : ¬a < b := fun hlt => ((lt_iff a b).mp hlt).2.2 h

theorem lt_irrefl (a : α) : ¬a < a := fun h => not_lt_of_le (le_of_lt a a h) h

theorem lt_asymm (h : a < b) : ¬b < a := not_lt_of_le (le_of_lt a b h)

theorem lt_of_lt_of_le (hab : a < b) (hbc : b ≤ c) : a < c := by
  have hb := (lt_iff a b).mp hab
  have hc := defined_of_le b c hbc
  refine (lt_iff a c).mpr ⟨hb.1, hc.2, ?_⟩
  intro hca
  exact hb.2.2 (le_trans b c a hbc hca)

theorem lt_of_not_le (ha : IsDefined a) (hb : IsDefined b) (h : ¬b ≤ a) : a < b :=
  (lt_iff a b).mpr ⟨ha, hb, h⟩

theorem le_of_not_lt (ha : IsDefined a) (hb : IsDefined b) (h : ¬a < b) : b ≤ a := by
  by_contra hle
  exact h (lt_of_not_le ha hb hle)

theorem defined_zero : IsDefined (0 : α) := ((lt_iff 0 1).mp zero_lt_one).1

/-- A number that is not below a limit is not negative if the limit is not, where the limit is
defined. -/
theorem not_neg_of_not_lt (hc : IsDefined c) (hneg : ¬c < 0) (h : ¬a < c) : ¬a < 0 := by
  intro ha
  have hle : (0 : α) ≤ c := le_of_not_lt hc defined_zero hneg
  exact h (lt_of_lt_of_le ha hle)

end RoundedScalar

/-- Exact arithmetic in which the roots of positive numbers are positive. -/
class PositiveRoots (α : Type) [OrderedScalar α] : Prop where
  sqrt_pos (a : α) : 0 < a → 0 < Scalar.sqrt a
  sqrt_zero : 0 ≤ Scalar.sqrt (0 : α)

instance : PositiveRoots ℝ where
  sqrt_pos _ h := Real.sqrt_pos.mpr h
  sqrt_zero := Real.sqrt_nonneg 0

instance : PositiveRoots ℚ where
  sqrt_pos a h := by
    have hnum : 0 < a.num := Rat.num_pos.mpr h
    have hroot : 0 < Int.sqrt a.num := by
      rw [Int.sqrt]
      exact_mod_cast Nat.sqrt_pos.mpr (by omega)
    have hden : Nat.sqrt a.den ≠ 0 := (Nat.sqrt_pos.mpr a.den_pos).ne'
    change 0 < mkRat (Int.sqrt a.num) (Nat.sqrt a.den)
    rw [Rat.mkRat_eq_div]
    exact div_pos (by exact_mod_cast hroot) (by exact_mod_cast Nat.pos_of_ne_zero hden)
  sqrt_zero := le_refl _

namespace OrderedScalar

variable {α : Type} [OrderedScalar α]

theorem two_eq : (Scalar.two : α) = 2 := one_add_one_eq_two

theorem tenth_eq : (Scalar.ratio 1 10 : α) = 1 / 10 := by
  have h : (Scalar.ratio 1 10 : α) = ((1 : ℤ) : α) / ((10 : ℤ) : α) := rfl
  rw [h, Int.cast_one, Int.cast_ofNat]

theorem norm_nonneg [PositiveRoots α] (v : List α) : 0 ≤ norm v := by
  rcases (dot_self_nonneg v).eq_or_lt with h | h
  · rw [norm, ← h]
    exact PositiveRoots.sqrt_zero
  · exact (PositiveRoots.sqrt_pos _ h).le

instance [PositiveRoots α] : RoundedScalar α where
  le_trans _ _ _ := le_trans
  lt_iff a b := by simp [IsDefined]
  le_of_lt _ _ := le_of_lt
  defined_of_le a b _ := ⟨le_refl a, le_refl b⟩
  defined_of_isNaN a _ := le_refl a
  defined_of_isFinite a _ := le_refl a
  defined_of_add a b _ := ⟨le_refl a, le_refl b⟩
  defined_of_sub a b _ := ⟨le_refl a, le_refl b⟩
  defined_of_mul a b _ := ⟨le_refl a, le_refl b⟩
  defined_of_div a b _ := ⟨le_refl a, le_refl b⟩
  add_defined a b _ _ _ _ := le_refl (a + b)
  mul_defined a b _ _ _ := le_refl (a * b)
  add_nonneg a b ha hb := not_lt.mpr (add_nonneg (not_lt.mp ha) (not_lt.mp hb))
  sub_nonneg a b h := not_lt.mpr (sub_nonneg.mpr (not_lt.mp h))
  mul_nonneg a b ha hb := not_lt.mpr (mul_nonneg (not_lt.mp ha) (not_lt.mp hb))
  mul_nonpos a b ha hb := not_lt.mpr (mul_nonpos_of_nonneg_of_nonpos (not_lt.mp ha) hb.le)
  div_nonneg a b ha hb := not_lt.mpr (div_nonneg (not_lt.mp ha) hb.le)
  one_div_norm v := not_lt.mpr (one_div_nonneg.mpr (norm_nonneg v))
  zero_lt_one := one_pos
  zero_lt_two := two_eq (α := α) ▸ two_pos
  zero_lt_tenth := by
    rw [tenth_eq]
    norm_num
  tenth_lt_one := by
    rw [tenth_eq]
    norm_num
  le_of_le_add a b c _ hc h := h.trans (add_le_of_nonpos_right (not_lt.mp hc))

end OrderedScalar

end Autodiff
