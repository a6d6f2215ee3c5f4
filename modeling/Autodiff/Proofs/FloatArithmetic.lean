import Autodiff.Proofs.RoundedArithmetic
import Autodiff.Proofs.BinaryArithmetic

namespace Autodiff

open Float.Model (Format UnpackedFloat)
open Binary

/-- Numbers that are stored in a binary format and rounded to it by every operation. -/
class BinaryScalar (α : Type) [Scalar α] where
  format : Format
  read : α → UnpackedFloat
  representable (a : α) : Representable format (read a)
  least_le : format.minExponent ≤ maxExponent format
  lt_iff (a b : α) : a < b ↔ (read a).lt (read b) = true
  le_iff (a b : α) : a ≤ b ↔ (read a).le (read b) = true
  beq_eq (a b : α) : (a == b) = (read a).beq (read b)
  isFinite_eq (a : α) : Scalar.isFinite a = (read a).isFinite
  read_zero : read 0 = .zero .positive
  read_add (a b : α) : read (a + b) = repack format (UnpackedFloat.add format (read a) (read b))
  read_sub (a b : α) : read (a - b) = repack format (UnpackedFloat.sub format (read a) (read b))
  read_mul (a b : α) : read (a * b) = repack format (UnpackedFloat.mul format (read a) (read b))
  read_div (a b : α) : read (a / b) = repack format (UnpackedFloat.div format (read a) (read b))
  read_sqrt (a : α) : read (Scalar.sqrt a) = repack format (UnpackedFloat.sqrt format (read a))
  zero_lt_one : (0 : α) < 1
  zero_lt_two : (0 : α) < Scalar.two
  zero_lt_tenth : (0 : α) < Scalar.ratio 1 10
  tenth_lt_one : (Scalar.ratio 1 10 : α) < 1

namespace BinaryScalar

variable {α : Type} [Scalar α] [BinaryScalar α] {a b c : α}

/-- The value of a number, counted in the smallest positive one. -/
def value (a : α) : Int := scaled (format α) (read a)

theorem defined_iff : Scalar.IsDefined a ↔ (read a).isNaN = false := by
  rw [Scalar.IsDefined, le_iff, Binary.le_iff (representable a) (representable a)]
  exact ⟨fun h => h.1, fun h => ⟨h, h, le_refl _⟩⟩

theorem le_iff_value : a ≤ b ↔ Scalar.IsDefined a ∧ Scalar.IsDefined b ∧ value a ≤ value b := by
  rw [defined_iff, defined_iff, le_iff, Binary.le_iff (representable a) (representable b)]
  rfl

theorem lt_iff_value : a < b ↔ Scalar.IsDefined a ∧ Scalar.IsDefined b ∧ value a < value b := by
  rw [defined_iff, defined_iff, lt_iff, Binary.lt_iff (representable a) (representable b)]
  rfl

theorem not_lt_zero_iff : ¬a < 0 ↔ Signed .positive (read a) := by
  rw [lt_iff, read_zero, lt_zero_iff, not_not]

theorem not_zero_lt_iff : ¬0 < a ↔ Signed .negative (read a) := by
  rw [lt_iff, read_zero, zero_lt_iff, not_not]

/-- A number above zero has its sign even where it divides. -/
theorem hasSign_of_pos (h : 0 < a) : HasSign .positive (read a) :=
  hasSign_of_not_signed fun hs => not_zero_lt_iff.mpr hs h

theorem hasSign_of_neg (h : a < 0) : HasSign .negative (read a) :=
  hasSign_of_not_signed fun hs => not_lt_zero_iff.mpr hs h

theorem defined_of_isNaN (h : Scalar.isNaN a = false) : Scalar.IsDefined a := by
  have heq : (read a).beq (read a) = true := by
    rw [← beq_eq]
    simpa [Scalar.isNaN] using h
  rw [UnpackedFloat.beq, beq_iff_eq] at heq
  exact defined_iff.mpr ((compare_eq_some_iff (representable a) (representable a)).mp heq).1

theorem defined_of_isFinite (h : Scalar.isFinite a = true) : Scalar.IsDefined a := by
  rw [isFinite_eq] at h
  rw [defined_iff]
  cases hread : read a with
  | notANumber =>
    rw [hread] at h
    cases h
  | infinity s => rfl
  | zero s => rfl
  | finite s m e hm => rfl

theorem defined_of_add (h : Scalar.IsDefined (a + b)) :
    Scalar.IsDefined a ∧ Scalar.IsDefined b := by
  rw [defined_iff, read_add, isNaN_repack] at h
  rw [defined_iff, defined_iff]
  exact Binary.defined_of_add h

theorem le_of_le_add (hfinite : Scalar.isFinite b = true) (hneg : ¬0 < c) (h : a ≤ b + c) :
    a ≤ b := by
  obtain ⟨ha, hsum, hle⟩ := le_iff_value.mp h
  obtain ⟨hb, hc⟩ := defined_of_add hsum
  rw [isFinite_eq] at hfinite
  have hvalue : value (b + c) ≤ value b := by
    rw [value, read_add]
    exact scaled_add_le least_le (representable b) (representable c) hfinite
      ((scaled_nonpos_iff _ _).mpr (not_zero_lt_iff.mp hneg)) (defined_iff.mp hc)
  exact le_iff_value.mpr ⟨ha, hb, hle.trans hvalue⟩

theorem add_nonneg (ha : ¬a < 0) (hb : ¬b < 0) : ¬a + b < 0 := by
  have ha' : 0 ≤ value a := (scaled_nonneg_iff _ _).mpr (not_lt_zero_iff.mp ha)
  have hb' : 0 ≤ value b := (scaled_nonneg_iff _ _).mpr (not_lt_zero_iff.mp hb)
  rw [not_lt_zero_iff, read_add]
  exact (signed_add (representable a) (representable b) (Int.add_nonneg ha' hb')).repack

theorem sub_nonneg (h : ¬b < a) : ¬b - a < 0 := by
  rw [not_lt_zero_iff, read_sub]
  apply Signed.repack
  cases hnan : (UnpackedFloat.sub (format α) (read b) (read a)).isNaN with
  | true => exact signed_of_isNaN hnan
  | false =>
    obtain ⟨hb, ha⟩ := defined_of_sub hnan
    have hle : value a ≤ value b := by
      by_contra hlt
      exact h (lt_iff_value.mpr ⟨defined_iff.mpr hb, defined_iff.mpr ha, not_le.mp hlt⟩)
    rw [sub_eq_add_neg]
    apply signed_add (representable b) (representable a).neg
    rw [scaled_neg]
    exact Int.sub_nonneg_of_le hle

/-- What lies between zero and a number is finite. -/
theorem read_eq_finite (hpos : 0 < a) (hlt : a < b) :
    ∃ s m e hm, read a = .finite s m e hm := by
  have hzero : value (0 : α) < value a := (lt_iff_value.mp hpos).2.2
  have hbound : value a < value b := (lt_iff_value.mp hlt).2.2
  have htop : value b ≤ top (format α) := scaled_le_top (representable b)
  have hsign := hasSign_of_pos hpos
  rw [value, read_zero] at hzero
  unfold value at hbound hzero htop
  cases hread : read a with
  | notANumber =>
    rw [hread] at hzero
    exact absurd hzero (lt_irrefl _)
  | infinity s =>
    rw [hread] at hsign hbound
    obtain rfl : s = .positive := hsign
    exact absurd (hbound.trans_le htop) (lt_irrefl _)
  | zero s =>
    rw [hread] at hzero
    exact absurd hzero (lt_irrefl _)
  | finite s m e hm => exact ⟨s, m, e, hm, rfl⟩

theorem hasSign_total (xs : List α) (start : α) (hstart : HasSign .positive (read start))
    (hxs : ∀ x ∈ xs, HasSign .positive (read x)) :
    HasSign .positive (read (xs.foldl (· + ·) start)) := by
  induction xs generalizing start with
  | nil => exact hstart
  | cons x xs ih =>
    apply ih
    · rw [read_add]
      exact (hasSign_add hstart (hxs x List.mem_cons_self)).repack
    · intro y hy
      exact hxs y (List.mem_cons_of_mem x hy)

/-- The length of a vector is not even the negative zero. -/
theorem hasSign_norm (v : List α) : HasSign .positive (read (norm v)) := by
  rw [norm, read_sqrt, dot, List.zipWith_self]
  apply HasSign.repack
  apply hasSign_sqrt
  apply hasSign_total
  · rw [read_zero]
    rfl
  · intro x hx
    obtain ⟨y, -, rfl⟩ := List.mem_map.mp hx
    rw [read_mul]
    exact (hasSign_mul_self _ _).repack

instance : RoundedScalar α where
  le_trans a b c hab hbc := by
    obtain ⟨ha, -, hab⟩ := le_iff_value.mp hab
    obtain ⟨-, hc, hbc⟩ := le_iff_value.mp hbc
    exact le_iff_value.mpr ⟨ha, hc, hab.trans hbc⟩
  lt_iff a b := by
    rw [lt_iff_value, le_iff_value]
    constructor
    · rintro ⟨ha, hb, h⟩
      exact ⟨ha, hb, fun hle => not_le.mpr h hle.2.2⟩
    · rintro ⟨ha, hb, h⟩
      exact ⟨ha, hb, not_le.mp fun hle => h ⟨hb, ha, hle⟩⟩
  le_of_lt a b h := by
    obtain ⟨ha, hb, h⟩ := lt_iff_value.mp h
    exact le_iff_value.mpr ⟨ha, hb, h.le⟩
  defined_of_le a b h := by
    obtain ⟨ha, hb, -⟩ := le_iff_value.mp h
    exact ⟨ha, hb⟩
  defined_of_isNaN _ := defined_of_isNaN
  defined_of_isFinite _ := defined_of_isFinite
  defined_of_add _ _ := defined_of_add
  defined_of_sub a b h := by
    rw [defined_iff, read_sub, isNaN_repack] at h
    rw [defined_iff, defined_iff]
    exact defined_of_sub h
  defined_of_mul a b h := by
    rw [defined_iff, read_mul, isNaN_repack] at h
    rw [defined_iff, defined_iff]
    exact defined_of_mul h
  defined_of_div a b h := by
    rw [defined_iff, read_div, isNaN_repack] at h
    rw [defined_iff, defined_iff]
    exact defined_of_div h
  add_defined a b ha hb hna hnb := by
    rw [defined_iff, read_add, isNaN_repack]
    exact add_defined (defined_iff.mp ha) (defined_iff.mp hb) (not_lt_zero_iff.mp hna)
      (not_lt_zero_iff.mp hnb)
  mul_defined a b ha hb hone := by
    obtain ⟨t, n, e, hn, hread⟩ := read_eq_finite hb hone
    rw [defined_iff, read_mul, isNaN_repack, hread]
    exact mul_defined (defined_iff.mp ha) hn
  add_nonneg _ _ := add_nonneg
  sub_nonneg _ _ := sub_nonneg
  mul_nonneg a b ha hb := by
    rw [not_lt_zero_iff, read_mul]
    exact (signed_mul (not_lt_zero_iff.mp ha) (not_lt_zero_iff.mp hb)).repack
  mul_nonpos a b ha hb := by
    rw [not_zero_lt_iff, read_mul]
    exact (signed_mul (not_lt_zero_iff.mp ha) (hasSign_of_neg hb).signed).repack
  div_nonneg a b ha hb := by
    rw [not_lt_zero_iff, read_div]
    exact (signed_div (not_lt_zero_iff.mp ha) (hasSign_of_pos hb)).repack
  one_div_norm v := by
    rw [not_lt_zero_iff, read_div]
    exact (signed_div (hasSign_of_pos zero_lt_one).signed (hasSign_norm v)).repack
  zero_lt_one := zero_lt_one
  zero_lt_two := zero_lt_two
  zero_lt_tenth := zero_lt_tenth
  tenth_lt_one := tenth_lt_one
  le_of_le_add _ _ _ := le_of_le_add

end BinaryScalar

instance : BinaryScalar Float where
  format := .binary64
  read a := a.toModel.unpack
  representable a := representable_unpack (by decide) _
  least_le := by decide
  lt_iff a b := decide_eq_true_iff
  le_iff a b := decide_eq_true_iff
  beq_eq a b := rfl
  isFinite_eq a := rfl
  read_zero := by rfl
  read_add a b := rfl
  read_sub a b := rfl
  read_mul a b := rfl
  read_div a b := rfl
  read_sqrt a := rfl
  zero_lt_one := by decide
  zero_lt_two := by decide
  zero_lt_tenth := by decide
  tenth_lt_one := by decide

instance : BinaryScalar Float32 where
  format := .binary32
  read a := a.toModel.unpack
  representable a := representable_unpack (by decide) _
  least_le := by decide
  lt_iff a b := decide_eq_true_iff
  le_iff a b := decide_eq_true_iff
  beq_eq a b := rfl
  isFinite_eq a := rfl
  read_zero := by rfl
  read_add a b := rfl
  read_sub a b := rfl
  read_mul a b := rfl
  read_div a b := rfl
  read_sqrt a := rfl
  zero_lt_one := by decide
  zero_lt_two := by decide
  zero_lt_tenth := by decide
  tenth_lt_one := by decide

end Autodiff
