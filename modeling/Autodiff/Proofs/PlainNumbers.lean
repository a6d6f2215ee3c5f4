import Autodiff.Proofs.ScalingArithmetic

namespace Autodiff

open Float.Model (Format UnpackedFloat)

namespace Binary

open Float.Model.UnpackedFloat

/-- A number without the sign of a zero. -/
def plain : UnpackedFloat → UnpackedFloat
  | .zero _ => .zero .positive
  | u => u

variable {S : Format} {s : Sign} {u v w : UnpackedFloat}

theorem plain_eq_notANumber : plain u = .notANumber ↔ u.isNaN = true := by
  cases u <;> simp [plain, isNaN]

theorem isFinite_plain (u : UnpackedFloat) : (plain u).isFinite = u.isFinite := by
  cases u <;> rfl

/-- Numbers that differ in the sign of a zero at most. -/
theorem plain_cases (h : plain u = plain v) : u = v ∨ ∃ s t, u = .zero s ∧ v = .zero t := by
  cases u with
  | zero s =>
    cases v with
    | zero t => exact .inr ⟨s, t, rfl, rfl⟩
    | _ => cases h
  | _ =>
    cases v with
    | zero t => cases h
    | _ => exact .inl h

theorem compare_eq_iff : u.compare v = some .eq ↔ plain u = plain v ∧ u.isNaN = false := by
  have hpair (m n : Nat) (d e : Int) : (compare d e).then (compare m n) = .eq ↔ m = n ∧ d = e := by
    rw [Ordering.then_eq_eq, compare_eq_iff_eq, compare_eq_iff_eq, and_comm]
  have hswap (o : Ordering) : o.swap = .eq ↔ o = .eq := by cases o <;> decide
  cases u with
  | notANumber => simp [UnpackedFloat.compare, isNaN]
  | infinity s =>
    cases v with
    | infinity t =>
      have hsign : compare s t = .eq ↔ s = t := by
        constructor
        · intro h
          cases s <;> cases t <;> first | rfl | cases h
        · rintro rfl
          cases s <;> rfl
      simp [UnpackedFloat.compare, plain, isNaN, hsign]
    | _ => cases s <;> simp [UnpackedFloat.compare, plain]
  | zero s =>
    cases v with
    | zero t => simp [UnpackedFloat.compare, plain, isNaN]
    | infinity t => cases t <;> simp [UnpackedFloat.compare, plain]
    | finite t n e hn => cases t <;> simp [UnpackedFloat.compare, plain]
    | notANumber => simp [UnpackedFloat.compare, plain]
  | finite s m d hm =>
    cases v with
    | infinity t => cases t <;> simp [UnpackedFloat.compare, plain]
    | zero t => cases s <;> simp [UnpackedFloat.compare, plain]
    | notANumber => simp [UnpackedFloat.compare, plain]
    | finite t n e hn =>
      cases s <;> cases t <;> simp [UnpackedFloat.compare, plain, isNaN, hpair, hswap]

theorem plain_add_zero_left (S : Format) (s : Sign) (v : UnpackedFloat) :
    plain (add S (.zero s) v) = plain v := by
  cases v with
  | zero t => cases s <;> cases t <;> rfl
  | _ => rfl

theorem plain_add_zero_right (S : Format) (u : UnpackedFloat) (s : Sign) :
    plain (add S u (.zero s)) = plain u := by
  cases u with
  | zero t => cases s <;> cases t <;> rfl
  | _ => rfl

theorem plain_add_left (h : plain u = plain v) (w : UnpackedFloat) :
    plain (add S u w) = plain (add S v w) := by
  rcases plain_cases h with rfl | ⟨s, t, rfl, rfl⟩
  · rfl
  · rw [plain_add_zero_left, plain_add_zero_left]

theorem plain_add_right (h : plain u = plain v) (w : UnpackedFloat) :
    plain (add S w u) = plain (add S w v) := by
  rcases plain_cases h with rfl | ⟨s, t, rfl, rfl⟩
  · rfl
  · rw [plain_add_zero_right, plain_add_zero_right]

theorem plain_repack (h : plain u = plain v) : plain (repack S u) = plain (repack S v) := by
  rcases plain_cases h with rfl | ⟨s, t, rfl, rfl⟩
  · rfl
  · rw [repack_zero, repack_zero]
    rfl

/-- A zero makes every finite factor vanish, but an infinite one undefined. -/
theorem mul_zero_cases (hu : plain u = .zero .positive) (v : UnpackedFloat) :
    (v.isFinite = true ∧ ∃ s, mul S u v = .zero s) ∨
      (v.isFinite = false ∧ mul S u v = .notANumber) := by
  obtain ⟨s, rfl⟩ : ∃ s, u = .zero s := by
    cases u with
    | zero s => exact ⟨s, rfl⟩
    | _ => cases hu
  cases v with
  | zero t => exact .inl ⟨rfl, _, rfl⟩
  | finite t n e hn => exact .inl ⟨rfl, _, rfl⟩
  | infinity t => exact .inr ⟨rfl, rfl⟩
  | notANumber => exact .inr ⟨rfl, rfl⟩

theorem mul_comm (S : Format) (u v : UnpackedFloat) : mul S u v = mul S v u := by
  have hsign (s t : Sign) : s * t = t * s := by cases s <;> cases t <;> rfl
  cases u <;> cases v <;> simp [mul, hsign, Nat.mul_comm, Int.add_comm]

theorem two_ne_one (S : Format) : two S ≠ one S := by
  intro h
  have hexponent := (UnpackedFloat.finite.inj h).2.2
  omega

end Binary

/-- The same number, whatever the sign of a zero, or both undefined. -/
def Scalar.Same {α : Type} [Scalar α] (a b : α) : Prop :=
  (a == b) = true ∨ Scalar.isNaN a = true ∧ Scalar.isNaN b = true

namespace UnitScalar

open Binary BinaryScalar

variable {α : Type} [Scalar α] [UnitScalar α] {a a' b b' : α}

/-- The number behind a value. Zero has one number, and so have all undefined values. -/
def number (a : α) : UnpackedFloat := plain (read a)

theorem number_zero : number (0 : α) = .zero .positive := by
  rw [number, read_zero]
  rfl

theorem isNaN_iff_number : Scalar.isNaN a = true ↔ number a = .notANumber := by
  rw [number, plain_eq_notANumber, Scalar.isNaN_iff, defined_iff, Bool.not_eq_false]

theorem beq_iff_number : (a == b) = true ↔ number a = number b ∧ Scalar.isNaN a = false := by
  rw [beq_eq, UnpackedFloat.beq, beq_iff_eq, compare_eq_iff, ← Bool.not_eq_true (Scalar.isNaN a),
    isNaN_iff_number, number, number, plain_eq_notANumber, Bool.not_eq_true]

theorem isFinite_number (a : α) : Scalar.isFinite a = (number a).isFinite := by
  rw [isFinite_eq, number, isFinite_plain]

theorem same_iff : Scalar.Same a b ↔ number a = number b := by
  rw [Scalar.Same, beq_iff_number, isNaN_iff_number, isNaN_iff_number]
  constructor
  · rintro (⟨h, -⟩ | ⟨ha, hb⟩)
    · exact h
    · rw [ha, hb]
  · intro h
    cases hnan : Scalar.isNaN a with
    | true =>
      have ha := isNaN_iff_number.mp hnan
      exact .inr ⟨ha, h ▸ ha⟩
    | false => exact .inl ⟨h, rfl⟩

theorem number_add (ha : number a = number a') (hb : number b = number b') :
    number (a + b) = number (a' + b') := by
  rw [number, number, read_add, read_add]
  exact plain_repack ((plain_add_left ha _).trans (plain_add_right hb _))

theorem number_zero_add (ha : number a = .zero .positive) (b : α) : number (a + b) = number b := by
  have hzero : number a = number (0 : α) := ha.trans number_zero.symm
  rw [number_add hzero rfl, number, read_add, read_zero,
    plain_repack (plain_add_zero_left _ _ _), repack_of_representable (representable b), number]

theorem number_add_zero (a : α) (hb : number b = .zero .positive) : number (a + b) = number a := by
  have hzero : number b = number (0 : α) := hb.trans number_zero.symm
  rw [number_add rfl hzero, number, read_add, read_zero,
    plain_repack (plain_add_zero_right _ _ _), repack_of_representable (representable a), number]

theorem isNaN_add (h : Scalar.isNaN a = true ∨ Scalar.isNaN b = true) :
    Scalar.isNaN (a + b) = true := by
  rw [Scalar.isNaN_iff] at h ⊢
  intro hdefined
  obtain ⟨ha, hb⟩ := defined_of_add hdefined
  exact h.elim (fun hn => hn ha) fun hn => Scalar.isNaN_iff.mp hn hb

theorem number_neg_zero : number (-0 : α) = .zero .positive := by
  rw [number, HalvedScalar.read_neg, read_zero, UnpackedFloat.neg, repack_zero]
  rfl

theorem number_zero_mul (ha : number a = .zero .positive) (hb : Scalar.isFinite b = true) :
    number (a * b) = .zero .positive := by
  rw [isFinite_eq] at hb
  rcases mul_zero_cases (S := format α) ha (read b) with ⟨-, s, hmul⟩ | ⟨hinfinite, -⟩
  · rw [number, read_mul, hmul, repack_zero]
    rfl
  · rw [hb] at hinfinite
    cases hinfinite

theorem isNaN_zero_mul (ha : number a = .zero .positive) (hb : Scalar.isFinite b = false) :
    Scalar.isNaN (a * b) = true := by
  rw [isFinite_eq] at hb
  rcases mul_zero_cases (S := format α) ha (read b) with ⟨hfinite, -⟩ | ⟨-, hmul⟩
  · rw [hb] at hfinite
    cases hfinite
  · rw [isNaN_iff_number, number, read_mul, hmul, repack_notANumber]
    rfl

theorem isFinite_one : Scalar.isFinite (1 : α) = true := by
  rw [isFinite_eq, read_one]
  rfl

theorem isFinite_half : Scalar.isFinite (Scalar.half : α) = true := by
  have hone : ¬(1 : α) < 0 := RoundedScalar.lt_asymm zero_lt_one
  have hreflexive : (1 : α) ≤ 1 := ((RoundedScalar.lt_iff _ _).mp (zero_lt_one (α := α))).2.1
  have htwo : (1 : α) ≤ Scalar.two :=
    RangedScalar.le_add 1 1 ((RoundedScalar.lt_iff _ _).mp zero_lt_two).2.1 hone
  have hdefined := div_defined hone hreflexive htwo
  have hle := (le_iff_value.mp (div_le hone hdefined htwo)).2.2
  have hnonneg := HalvedScalar.value_nonneg (RoundedScalar.div_nonneg (1 : α) _ hone zero_lt_two)
  rw [value, value, read_one] at hle
  rw [isFinite_eq]
  exact isFinite_of_le_one least_le (defined_iff.mp hdefined) hnonneg hle

theorem number_half_mul (hb : number b = .zero .positive) :
    number (Scalar.half * b) = .zero .positive := by
  rw [number, read_mul, mul_comm, ← read_mul, ← number]
  exact number_zero_mul hb isFinite_half

theorem two_beq_one : ((Scalar.two : α) == 1) = false := by
  rw [← Bool.not_eq_true, beq_iff_number, number, number, read_one, HalvedScalar.read_two]
  exact fun h => two_ne_one _ h.1

theorem two_beq_zero : ((Scalar.two : α) == 0) = false := by
  rw [← Bool.not_eq_true, beq_iff_number, number_zero, number, HalvedScalar.read_two]
  exact nofun

end UnitScalar

end Autodiff
