import Autodiff.Proofs.BinaryFloats

namespace Autodiff.Binary

open Float.Model (Format UnpackedFloat)
open Float.Model.UnpackedFloat

/-- Not on the other side of zero than a sign says. -/
def Signed (s : Sign) : UnpackedFloat → Prop
  | .infinity t => t = s
  | .finite t _ _ _ => t = s
  | _ => True

/-- With a sign, also where it is a zero. -/
def HasSign (s : Sign) : UnpackedFloat → Prop
  | .notANumber => True
  | .infinity t => t = s
  | .zero t => t = s
  | .finite t _ _ _ => t = s

variable {S : Format} {s t : Sign} {u v w : UnpackedFloat} {m n : Nat} {d e : Int} {M : Int}

section Signs

theorem HasSign.signed (h : HasSign s u) : Signed s u := by
  cases u with
  | notANumber => trivial
  | zero t => trivial
  | infinity t => exact h
  | finite t m e hm => exact h

theorem signed_of_isNaN (h : u.isNaN = true) : Signed s u := by
  cases u with
  | notANumber => trivial
  | zero t => trivial
  | infinity t => cases h
  | finite t m e hm => cases h

theorem lt_zero_iff : u.lt (.zero t) = true ↔ ¬Signed .positive u := by
  cases u with
  | notANumber => exact iff_of_false nofun fun h => h trivial
  | zero s => exact iff_of_false nofun fun h => h trivial
  | infinity s => cases s <;> simp [UnpackedFloat.lt, UnpackedFloat.compare, Signed]
  | finite s m e hm => cases s <;> simp [UnpackedFloat.lt, UnpackedFloat.compare, Signed]

theorem zero_lt_iff : (zero t).lt u = true ↔ ¬Signed .negative u := by
  cases u with
  | notANumber => exact iff_of_false nofun fun h => h trivial
  | zero s => exact iff_of_false nofun fun h => h trivial
  | infinity s => cases s <;> simp [UnpackedFloat.lt, UnpackedFloat.compare, Signed]
  | finite s m e hm => cases s <;> simp [UnpackedFloat.lt, UnpackedFloat.compare, Signed]

theorem hasSign_of_not_signed (h : ¬Signed s u) : HasSign (-s) u := by
  cases u with
  | notANumber => exact absurd trivial h
  | zero t => exact absurd trivial h
  | infinity t => cases s <;> cases t <;> first | rfl | exact absurd rfl h
  | finite t m e hm => cases s <;> cases t <;> first | rfl | exact absurd rfl h

theorem Signed.repack (h : Signed s u) : Signed s (repack S u) := by
  cases u with
  | notANumber => rwa [repack_notANumber]
  | zero t => rwa [repack_zero]
  | infinity t => rwa [repack_infinity]
  | finite t m e hm =>
    rcases repack_finite_cases S t hm with heq | heq | ⟨m', e', hm', heq⟩ <;> rw [heq]
    · exact h
    · trivial
    · exact h

theorem HasSign.repack (h : HasSign s u) : HasSign s (repack S u) := by
  cases u with
  | notANumber => rwa [repack_notANumber]
  | zero t => rwa [repack_zero]
  | infinity t => rwa [repack_infinity]
  | finite t m e hm =>
    rcases repack_finite_cases S t hm with heq | heq | ⟨m', e', hm', heq⟩ <;> rwa [heq]

@[simp]
theorem isNaN_repack : (repack S u).isNaN = u.isNaN := by
  cases u with
  | notANumber => rw [repack_notANumber]
  | zero t => rw [repack_zero]
  | infinity t => rw [repack_infinity]
  | finite t m e hm =>
    rcases repack_finite_cases S t hm with heq | heq | ⟨m', e', hm', heq⟩ <;> rw [heq] <;> rfl

end Signs

section Rounding

theorem roundWithAccuracy_cases (S : Format) (s : Sign) (m : Nat) (e : Int) (a : Accuracy) :
    roundWithAccuracy S s m e a = .zero s ∨
      ∃ m' e' h, roundWithAccuracy S s m e a = .finite s m' e' h := by
  unfold roundWithAccuracy
  dsimp only
  split
  next => exact .inl rfl
  next h => exact .inr ⟨_, _, Nat.pos_of_ne_zero h, rfl⟩

theorem hasSign_roundWithAccuracy (S : Format) (s : Sign) (m : Nat) (e : Int) (a : Accuracy) :
    HasSign s (roundWithAccuracy S s m e a) := by
  rcases roundWithAccuracy_cases S s m e a with h | ⟨_, _, _, h⟩ <;> rw [h] <;> rfl

@[simp]
theorem isNaN_roundWithAccuracy (S : Format) (s : Sign) (m : Nat) (e : Int) (a : Accuracy) :
    (roundWithAccuracy S s m e a).isNaN = false := by
  rcases roundWithAccuracy_cases S s m e a with h | ⟨_, _, _, h⟩ <;> rw [h] <;> rfl

theorem hasSign_round (S : Format) (s : Sign) (m : Nat) (e : Int) :
    HasSign s (UnpackedFloat.round S s m e) :=
  hasSign_roundWithAccuracy S s _ _ _

theorem normalize_of_pos (h : 0 < M) (S : Format) (e : Int) (t : Sign) :
    UnpackedFloat.normalize S M e t = UnpackedFloat.round S .positive M.toNat e := by
  rw [UnpackedFloat.normalize, compare_gt_iff_gt.mpr h]

theorem normalize_of_neg (h : M < 0) (S : Format) (e : Int) (t : Sign) :
    UnpackedFloat.normalize S M e t = UnpackedFloat.round S .negative (-M).toNat e := by
  rw [UnpackedFloat.normalize, compare_lt_iff_lt.mpr h]

theorem normalize_zero (S : Format) (e : Int) (t : Sign) :
    UnpackedFloat.normalize S 0 e t = .zero t := rfl

theorem signed_normalize_of_nonneg (h : 0 ≤ M) :
    Signed .positive (UnpackedFloat.normalize S M e t) := by
  rcases h.eq_or_lt with rfl | h
  · trivial
  · rw [normalize_of_pos h]
    exact (hasSign_round S .positive _ e).signed

@[simp]
theorem isNaN_normalize : (UnpackedFloat.normalize S M e t).isNaN = false := by
  rcases lt_trichotomy M 0 with h | rfl | h
  · rw [normalize_of_neg h]
    exact isNaN_roundWithAccuracy S .negative _ _ _
  · rfl
  · rw [normalize_of_pos h]
    exact isNaN_roundWithAccuracy S .positive _ _ _

end Rounding

section Undefined

theorem defined_of_add (h : (add S u v).isNaN = false) : u.isNaN = false ∧ v.isNaN = false := by
  cases u <;> cases v <;> first | exact ⟨rfl, rfl⟩ | cases h

theorem defined_of_mul (h : (mul S u v).isNaN = false) : u.isNaN = false ∧ v.isNaN = false := by
  cases u <;> cases v <;> first | exact ⟨rfl, rfl⟩ | cases h

theorem defined_of_div (h : (div S u v).isNaN = false) : u.isNaN = false ∧ v.isNaN = false := by
  cases u <;> cases v <;> first | exact ⟨rfl, rfl⟩ | cases h

/-- Only infinities of opposite signs have no sum. -/
theorem add_defined (hu : u.isNaN = false) (hv : v.isNaN = false) (hsu : Signed s u)
    (hsv : Signed s v) : (add S u v).isNaN = false := by
  cases u with
  | notANumber => cases hu
  | infinity a =>
    cases v with
    | notANumber => cases hv
    | infinity b =>
      obtain rfl : a = s := hsu
      obtain rfl : b = a := hsv
      cases b <;> rfl
    | zero b => rfl
    | finite b n e hn => rfl
  | zero a =>
    cases v with
    | notANumber => cases hv
    | infinity b => rfl
    | zero b => cases a <;> cases b <;> rfl
    | finite b n e hn => rfl
  | finite a m d hm =>
    cases v with
    | notANumber => cases hv
    | infinity b => rfl
    | zero b => rfl
    | finite b n e hn => exact isNaN_normalize

/-- Only an infinity and a zero have no product. -/
theorem mul_defined (hu : u.isNaN = false) (hn : 0 < n) :
    (mul S u (.finite t n e hn)).isNaN = false := by
  cases u with
  | notANumber => cases hu
  | infinity a => rfl
  | zero a => rfl
  | finite a m d hm => exact isNaN_roundWithAccuracy S _ _ _ _

end Undefined

section Sums

theorem shiftLeft_value (hd : S.minExponent ≤ d) (hle : d ≤ e) (m : Nat) :
    m <<< (e - d).toNat * 2 ^ height S d = m * 2 ^ height S e := by
  have hheight : height S e = (e - d).toNat + height S d := by
    unfold height
    omega
  rw [Nat.shiftLeft_eq, Nat.mul_assoc, ← Nat.pow_add, hheight]

theorem apply_mul (s : Sign) (a b : Nat) :
    s.apply (a : Int) * b = s.apply ((a * b : Nat) : Int) := by
  cases s <;> simp [Sign.apply]

theorem apply_neg (s : Sign) (a : Int) : (-s).apply a = -s.apply a := by
  cases s
  · exact (Int.neg_neg a).symm
  · rfl

/-- Finite numbers are added exactly before the sum is rounded. -/
theorem add_finite (hd : S.minExponent ≤ d) (he : S.minExponent ≤ e) (hm : 0 < m) (hn : 0 < n) :
    ∃ M x, add S (.finite s m d hm) (.finite t n e hn) = UnpackedFloat.normalize S M x .positive ∧
      S.minExponent ≤ x ∧ M * (2 ^ height S x : Nat) =
        scaled S (.finite s m d hm) + scaled S (.finite t n e hn) := by
  refine ⟨_, _, rfl, by omega, ?_⟩
  have hleft := shiftLeft_value (S := S) (d := min d e) (e := d) (by omega) (by omega) m
  have hright := shiftLeft_value (S := S) (d := min d e) (e := e) (by omega) (by omega) n
  rw [Int.add_mul, apply_mul, apply_mul, hleft, hright]
  rfl

theorem sub_eq_add_neg (S : Format) (u v : UnpackedFloat) : sub S u v = add S u v.neg := by
  cases u <;> cases v <;> simp [sub, add, neg, apply_neg, Int.sub_eq_add_neg]

theorem Representable.neg (h : Representable S u) : Representable S u.neg := by
  cases u <;> exact h

theorem scaled_neg (S : Format) (u : UnpackedFloat) : scaled S u.neg = -scaled S u := by
  cases u with
  | notANumber => rfl
  | infinity s => exact apply_neg s _
  | zero s => rfl
  | finite s m e hm => exact apply_neg s _

theorem isNaN_neg (u : UnpackedFloat) : u.neg.isNaN = u.isNaN := by
  cases u <;> rfl

theorem defined_of_sub (h : (sub S u v).isNaN = false) : u.isNaN = false ∧ v.isNaN = false := by
  rw [sub_eq_add_neg] at h
  have hargs := defined_of_add h
  rwa [isNaN_neg] at hargs

theorem scaled_le_top (h : Representable S u) : scaled S u ≤ top S := by
  have htop := top_pos S
  cases u with
  | notANumber => exact Int.natCast_nonneg _
  | zero s => exact Int.natCast_nonneg _
  | infinity s => cases s <;> simp only [scaled, Sign.apply] <;> omega
  | finite s m e hm => exact (scaled_lt_top h rfl).2.le

theorem negative_ne_positive : Sign.negative ≠ .positive := nofun

theorem scaled_nonneg_iff (S : Format) (u : UnpackedFloat) :
    0 ≤ scaled S u ↔ Signed .positive u := by
  have htop := top_pos S
  cases u with
  | notANumber => exact iff_of_true (le_refl _) trivial
  | zero s => exact iff_of_true (le_refl _) trivial
  | infinity s =>
    cases s
    · exact iff_of_false (by simp only [scaled, Sign.apply]; omega) negative_ne_positive
    · exact iff_of_true (by simp only [scaled, Sign.apply]; omega) rfl
  | finite s m e hm =>
    have hpos := mul_two_pow_height_pos (S := S) (e := e) hm
    cases s
    · exact iff_of_false (by simp only [scaled, Sign.apply]; omega) negative_ne_positive
    · exact iff_of_true (by simp only [scaled, Sign.apply]; omega) rfl

theorem signed_neg_iff : Signed .positive u.neg ↔ Signed .negative u := by
  have hsign (s : Sign) : -s = .positive ↔ s = .negative := by
    cases s
    · exact iff_of_true rfl rfl
    · exact iff_of_false negative_ne_positive negative_ne_positive.symm
  cases u with
  | notANumber => exact Iff.rfl
  | zero s => exact Iff.rfl
  | infinity s => exact hsign s
  | finite s m e hm => exact hsign s

theorem scaled_nonpos_iff (S : Format) (u : UnpackedFloat) :
    scaled S u ≤ 0 ↔ Signed .negative u := by
  rw [← signed_neg_iff, ← scaled_nonneg_iff S, scaled_neg, Int.neg_nonneg]

/-- A sum that is not below zero is not negative after it is rounded. -/
theorem signed_add (hu : Representable S u) (hv : Representable S v)
    (h : 0 ≤ scaled S u + scaled S v) : Signed .positive (add S u v) := by
  have htop := top_pos S
  cases u with
  | notANumber => trivial
  | infinity s =>
    cases v with
    | notANumber => trivial
    | infinity t =>
      cases s <;> cases t
      · simp only [scaled, Sign.apply] at h
        omega
      · trivial
      · trivial
      · rfl
    | zero t => exact (scaled_nonneg_iff S (.infinity s)).mp (by simpa [scaled] using h)
    | finite t n e hn =>
      have hlt := scaled_lt_top hv rfl
      cases s
      · change 0 ≤ -(top S : Int) + _ at h
        omega
      · rfl
  | zero s =>
    have hv' : 0 ≤ scaled S v := by simpa [scaled] using h
    have hsign := (scaled_nonneg_iff S v).mp hv'
    cases v with
    | notANumber => trivial
    | infinity t => exact hsign
    | zero t => cases s <;> cases t <;> trivial
    | finite t n e hn => exact hsign
  | finite s m d hm =>
    have hlt := scaled_lt_top hu rfl
    cases v with
    | notANumber => trivial
    | infinity t =>
      cases t
      · change 0 ≤ _ + -(top S : Int) at h
        omega
      · rfl
    | zero t => exact (scaled_nonneg_iff S (.finite s m d hm)).mp (by simpa [scaled] using h)
    | finite t n e hn =>
      obtain ⟨M, x, hadd, -, hvalue⟩ := add_finite (s := s) (t := t) hu.1.least hv.1.least hm hn
      rw [hadd]
      rw [← hvalue] at h
      have hpow : 0 < ((2 ^ height S x : Nat) : Int) := by exact_mod_cast Nat.two_pow_pos _
      exact signed_normalize_of_nonneg (nonneg_of_mul_nonneg_left h hpow)

theorem round_positive_le {x : Int} (hu : Representable S u) (hfinite : u.isFinite = true)
    (hm : 0 < m) (hx : S.minExponent ≤ x) (h : ((m * 2 ^ height S x : Nat) : Int) ≤ scaled S u) :
    Canonical S (UnpackedFloat.round S .positive m x) ∧
      scaled S (UnpackedFloat.round S .positive m x) ≤ scaled S u := by
  obtain ⟨m', e', hm', heq, hfits, hround⟩ := round_exact (S := S) .positive hm hx
  have hX : 0 < m * 2 ^ height S x := mul_two_pow_height_pos hm
  rw [heq]
  refine ⟨hfits, ?_⟩
  cases u with
  | notANumber => cases hfinite
  | infinity t => cases hfinite
  | zero t =>
    simp only [scaled] at h
    omega
  | finite t n e hn =>
    cases t with
    | negative =>
      simp only [scaled, Sign.apply] at h
      omega
    | positive =>
      simp only [scaled, Sign.apply] at h ⊢
      have hle := hround.le (k := height S e) hX hu.1.lt (by omega)
      omega

theorem round_negative_le {x : Int} (hu : Representable S u) (hfinite : u.isFinite = true)
    (hm : 0 < m) (hx : S.minExponent ≤ x) (h : -((m * 2 ^ height S x : Nat) : Int) ≤ scaled S u) :
    Canonical S (UnpackedFloat.round S .negative m x) ∧
      scaled S (UnpackedFloat.round S .negative m x) ≤ scaled S u := by
  obtain ⟨m', e', hm', heq, hfits, hround⟩ := round_exact (S := S) .negative hm hx
  have hX : 0 < m * 2 ^ height S x := mul_two_pow_height_pos hm
  rw [heq]
  refine ⟨hfits, ?_⟩
  cases u with
  | notANumber => cases hfinite
  | infinity t => cases hfinite
  | zero t =>
    simp only [scaled, Sign.apply]
    omega
  | finite t n e hn =>
    cases t with
    | positive =>
      simp only [scaled, Sign.apply]
      omega
    | negative =>
      simp only [scaled, Sign.apply] at h ⊢
      have hge := hround.ge (k := height S e) (mantissaBits_pos S) hX hu.1.lt (by omega)
      omega

/-- Rounding does not lead over a finite number of the format. -/
theorem normalize_le {x : Int} (hu : Representable S u) (hfinite : u.isFinite = true)
    (hx : S.minExponent ≤ x) (h : M * (2 ^ height S x : Nat) ≤ scaled S u) :
    Canonical S (UnpackedFloat.normalize S M x .positive) ∧
      scaled S (UnpackedFloat.normalize S M x .positive) ≤ scaled S u := by
  rcases lt_trichotomy M 0 with hM | rfl | hM
  · rw [normalize_of_neg hM]
    apply round_negative_le hu hfinite (by omega) hx
    rwa [Int.natCast_mul, Int.toNat_of_nonneg (by omega), ← Int.neg_mul, Int.neg_neg]
  · rw [normalize_zero]
    exact ⟨trivial, by simpa [scaled] using h⟩
  · rw [normalize_of_pos hM]
    apply round_positive_le hu hfinite (by omega) hx
    rwa [Int.natCast_mul, Int.toNat_of_nonneg hM.le]

/-- Storing does not lead over a finite number of the format. -/
theorem scaled_repack_le (hS : S.minExponent ≤ maxExponent S) (hv : Canonical S v)
    (hu : Representable S u) (hfinite : u.isFinite = true) (h : scaled S v ≤ scaled S u) :
    scaled S (repack S v) ≤ scaled S u := by
  have hbound := scaled_lt_top hu hfinite
  rcases repack_cases hS hv with ⟨-, heq⟩ | ⟨t, heq, hlarge⟩
  · rwa [heq]
  · rw [heq]
    cases t with
    | negative => exact hbound.1.le
    | positive =>
      change (top S : Int) ≤ scaled S v at hlarge
      omega

@[simp]
theorem scaled_zero (S : Format) (s : Sign) : scaled S (.zero s) = 0 := rfl

/-- A sum of finite numbers is not rounded over a finite number that its exact value is not over. -/
theorem add_le_of_le (hu : Representable S u) (hv : Representable S v) (hw : Representable S w)
    (hfu : u.isFinite = true) (hfv : v.isFinite = true) (hfw : w.isFinite = true)
    (h : scaled S u + scaled S v ≤ scaled S w) :
    Canonical S (add S u v) ∧ scaled S (add S u v) ≤ scaled S w := by
  cases u with
  | notANumber => cases hfu
  | infinity s => cases hfu
  | zero s =>
    rw [scaled_zero, Int.zero_add] at h
    cases v with
    | notANumber => cases hfv
    | infinity t => cases hfv
    | zero t => cases s <;> cases t <;> exact ⟨trivial, h⟩
    | finite t n e hn => exact ⟨hv.1, h⟩
  | finite s m d hm =>
    cases v with
    | notANumber => cases hfv
    | infinity t => cases hfv
    | zero t =>
      rw [scaled_zero, Int.add_zero] at h
      exact ⟨hu.1, h⟩
    | finite t n e hn =>
      obtain ⟨M, x, hadd, hx, hvalue⟩ := add_finite (s := s) (t := t) hu.1.least hv.1.least hm hn
      rw [hadd]
      exact normalize_le hw hfw hx (by omega)

theorem add_le (hu : Representable S u) (hv : Representable S v) (hfinite : u.isFinite = true)
    (hneg : scaled S v ≤ 0) (hdefined : v.isNaN = false) :
    Canonical S (add S u v) ∧ scaled S (add S u v) ≤ scaled S u := by
  cases hfv : v.isFinite with
  | true => exact add_le_of_le hu hv hu hfinite hfv hfinite (by omega)
  | false =>
    cases v with
    | notANumber => cases hdefined
    | zero t => cases hfv
    | finite t n e hn => cases hfv
    | infinity t =>
      have hadd : add S u (.infinity t) = .infinity t := by
        cases u with
        | notANumber => cases hfinite
        | infinity s => cases hfinite
        | _ => rfl
      rw [hadd]
      have hlt := scaled_lt_top hu hfinite
      cases t with
      | negative => exact ⟨trivial, hlt.1.le⟩
      | positive =>
        have htop := top_pos S
        change (top S : Int) ≤ 0 at hneg
        omega

/-- Adding what is not positive to a finite number does not lead upwards. -/
theorem scaled_add_le (hS : S.minExponent ≤ maxExponent S) (hu : Representable S u)
    (hv : Representable S v) (hfinite : u.isFinite = true) (hneg : scaled S v ≤ 0)
    (hdefined : v.isNaN = false) : scaled S (repack S (add S u v)) ≤ scaled S u := by
  obtain ⟨hcanonical, hle⟩ := add_le hu hv hfinite hneg hdefined
  exact scaled_repack_le hS hcanonical hu hfinite hle

end Sums

section Products

theorem signed_mul (hu : Signed s u) (hv : Signed t v) : Signed (s * t) (mul S u v) := by
  cases u with
  | notANumber => trivial
  | infinity a =>
    obtain rfl : a = s := hu
    cases v with
    | notANumber => trivial
    | infinity b => exact congrArg (a * ·) hv
    | zero b => trivial
    | finite b n e hn => exact congrArg (a * ·) hv
  | zero a => cases v <;> trivial
  | finite a m d hm =>
    obtain rfl : a = s := hu
    cases v with
    | notANumber => trivial
    | infinity b => exact congrArg (a * ·) hv
    | zero b => trivial
    | finite b n e hn =>
      obtain rfl : b = t := hv
      exact (hasSign_roundWithAccuracy S _ _ _ _).signed

theorem hasSign_mul_self (S : Format) (u : UnpackedFloat) : HasSign .positive (mul S u u) := by
  have hsign (a : Sign) : a * a = .positive := by cases a <;> rfl
  cases u with
  | notANumber => trivial
  | infinity a => exact hsign a
  | zero a => exact hsign a
  | finite a m d hm =>
    rw [← hsign a]
    exact hasSign_roundWithAccuracy S _ _ _ _

/-- Only the sign of a divisor that is zero matters as well. -/
theorem signed_div (hu : Signed s u) (hv : HasSign t v) : Signed (s / t) (div S u v) := by
  cases u with
  | notANumber => trivial
  | infinity a =>
    obtain rfl : a = s := hu
    cases v with
    | notANumber => trivial
    | infinity b => trivial
    | zero b => exact congrArg (a / ·) hv
    | finite b n e hn => exact congrArg (a / ·) hv
  | zero a => cases v <;> trivial
  | finite a m d hm =>
    obtain rfl : a = s := hu
    cases v with
    | notANumber => trivial
    | infinity b => trivial
    | zero b => exact congrArg (a / ·) hv
    | finite b n e hn =>
      obtain rfl : b = t := hv
      exact (hasSign_roundWithAccuracy S _ _ _ _).signed

theorem hasSign_add (hu : HasSign .positive u) (hv : HasSign .positive v) :
    HasSign .positive (add S u v) := by
  cases u with
  | notANumber => trivial
  | infinity a =>
    obtain rfl : a = .positive := hu
    cases v with
    | notANumber => trivial
    | infinity b =>
      obtain rfl : b = .positive := hv
      rfl
    | zero b => rfl
    | finite b n e hn => rfl
  | zero a =>
    obtain rfl : a = .positive := hu
    cases v with
    | notANumber => trivial
    | infinity b => exact hv
    | zero b =>
      obtain rfl : b = .positive := hv
      rfl
    | finite b n e hn => exact hv
  | finite a m d hm =>
    obtain rfl : a = .positive := hu
    cases v with
    | notANumber => trivial
    | infinity b => exact hv
    | zero b => rfl
    | finite b n e hn =>
      obtain rfl : b = .positive := hv
      have hm' : 0 < (m <<< (d - min d e).toNat : Nat) := by
        rw [Nat.shiftLeft_eq]
        exact Nat.mul_pos hm (Nat.two_pow_pos _)
      change HasSign .positive (UnpackedFloat.normalize S
        ((m <<< (d - min d e).toNat : Nat) + (n <<< (e - min d e).toNat : Nat)) (min d e) .positive)
      have hsum := Int.add_pos_of_pos_of_nonneg (Int.natCast_pos.mpr hm')
        (Int.natCast_nonneg (n <<< (e - min d e).toNat))
      rw [normalize_of_pos hsum]
      exact hasSign_round S .positive _ _

theorem hasSign_sqrt (hu : HasSign .positive u) : HasSign .positive (sqrt S u) := by
  cases u with
  | notANumber => trivial
  | infinity a =>
    obtain rfl : a = .positive := hu
    rfl
  | zero a => exact hu
  | finite a m d hm =>
    obtain rfl : a = .positive := hu
    exact hasSign_roundWithAccuracy S .positive _ _ _

end Products

end Autodiff.Binary
