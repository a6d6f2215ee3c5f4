import Autodiff.Proofs.BinaryArithmetic

namespace Autodiff.Binary

open Float.Model (Format UnpackedFloat totalExponent)
open Float.Model.UnpackedFloat

variable {S : Format} {s t : Sign} {u v w : UnpackedFloat} {m n : Nat} {d e : Int} {M : Int}

section Negation

theorem roundWithAccuracy_neg (S : Format) (s : Sign) (m : Nat) (e : Int) (a : Accuracy) :
    roundWithAccuracy S (-s) m e a = (roundWithAccuracy S s m e a).neg := by
  unfold roundWithAccuracy
  dsimp only
  split <;> rfl

theorem unpack_packComponents_neg (s : Sign) (x : BitVec S.exponentBits)
    (y : BitVec S.mantissaBitsWithoutImplicit) :
    unpack S (packComponents S (-s) x y) = (unpack S (packComponents S s x y)).neg := by
  unfold unpack
  simp only [unpackMantissa_packComponents, unpackExponent_packComponents,
    unpackSign_packComponents, Sign.ofBitVec_toBitVec]
  split
  next => split <;> rfl
  next =>
    split
    next => split <;> rfl
    next => rfl

/-- Numbers are stored apart from their signs. -/
theorem repack_neg (S : Format) (u : UnpackedFloat) : repack S u.neg = (repack S u).neg := by
  cases u with
  | notANumber => simp [neg]
  | infinity s => simp [neg]
  | zero s => simp [neg]
  | finite s m e hm =>
    simp only [neg, repack, pack]
    split
    next => exact unpack_packComponents_neg s _ _
    next => split <;> exact unpack_packComponents_neg s _ _

theorem normalize_neg (h : M ≠ 0) (S : Format) (e : Int) (t : Sign) :
    UnpackedFloat.normalize S (-M) e t = (UnpackedFloat.normalize S M e t).neg := by
  have hround (s : Sign) (m : Nat) :
      UnpackedFloat.round S (-s) m e = (UnpackedFloat.round S s m e).neg :=
    roundWithAccuracy_neg S s _ _ _
  rcases lt_or_gt_of_ne h with h | h
  · rw [normalize_of_neg h, normalize_of_pos (Int.neg_pos_of_neg h), ← hround]
    rfl
  · rw [normalize_of_pos h, normalize_of_neg (Int.neg_neg_of_pos h), Int.neg_neg, ← hround]
    rfl

/-- The sum of the opposite numbers is opposite, but for a zero, which is always positive. -/
theorem add_neg (S : Format) (u v : UnpackedFloat) : add S u.neg v.neg = (add S u v).neg ∨
    add S u.neg v.neg = .zero .positive ∧ add S u v = .zero .positive := by
  cases u with
  | notANumber => exact .inl rfl
  | infinity s =>
    cases v with
    | infinity t => cases s <;> cases t <;> exact .inl rfl
    | _ => exact .inl rfl
  | zero s =>
    cases v with
    | zero t =>
      cases s <;> cases t
      · exact .inl rfl
      · exact .inr ⟨rfl, rfl⟩
      · exact .inr ⟨rfl, rfl⟩
      · exact .inl rfl
    | _ => exact .inl rfl
  | finite s m d hm =>
    cases v with
    | finite t n e hn =>
      change UnpackedFloat.normalize S ((-s).apply _ + (-t).apply _) _ _ =
          (UnpackedFloat.normalize S (s.apply _ + t.apply _) _ _).neg ∨
        UnpackedFloat.normalize S ((-s).apply _ + (-t).apply _) _ _ = _ ∧
          UnpackedFloat.normalize S (s.apply _ + t.apply _) _ _ = _
      rw [apply_neg, apply_neg, ← Int.neg_add]
      by_cases hM : s.apply (m <<< (d - min d e).toNat : Nat) +
          t.apply (n <<< (e - min d e).toNat : Nat) = 0
      · right
        rw [hM]
        exact ⟨rfl, rfl⟩
      · exact .inl (normalize_neg hM S _ _)
    | _ => exact .inl rfl

theorem mul_neg_left (S : Format) (u v : UnpackedFloat) : mul S u.neg v = mul S u v.neg := by
  have hsign (s t : Sign) : -s * t = s * -t := by cases s <;> cases t <;> rfl
  cases u <;> cases v <;> simp [mul, neg, hsign]

end Negation

section Sums

theorem isFinite_of_lt_top (hdefined : u.isNaN = false) (hlow : -(top S : Int) < scaled S u)
    (hhigh : scaled S u < top S) : u.isFinite = true := by
  cases u with
  | notANumber => cases hdefined
  | infinity s => cases s <;> simp only [scaled, Sign.apply] at hlow hhigh <;> omega
  | zero s => rfl
  | finite s m e hm => rfl

theorem isFinite_neg (u : UnpackedFloat) : u.neg.isFinite = u.isFinite := by
  cases u <;> rfl

theorem defined_of_scaled_pos (h : 0 < scaled S u) : u.isNaN = false := by
  cases u with
  | notANumber => cases h
  | _ => rfl

theorem add_defined_of_isFinite (hu : u.isFinite = true) (hv : v.isNaN = false) :
    (add S u v).isNaN = false := by
  cases u with
  | notANumber => cases hu
  | infinity s => cases hu
  | zero s =>
    cases v with
    | notANumber => cases hv
    | zero t => cases s <;> cases t <;> rfl
    | _ => rfl
  | finite s m d hm =>
    cases v with
    | notANumber => cases hv
    | finite t n e hn => exact isNaN_normalize
    | _ => rfl

theorem add_infinity_left (h : (add S (.infinity s) v).isNaN = false) :
    add S (.infinity s) v = .infinity s := by
  cases v with
  | notANumber => cases h
  | infinity t => cases s <;> cases t <;> first | rfl | cases h
  | zero t => rfl
  | finite t n e hn => rfl

theorem isFinite_of_add (h : (repack S (add S u v)).isFinite = true) : u.isFinite = true := by
  cases hnan : (add S u v).isNaN with
  | true =>
    rw [isNaN_iff.mp hnan, repack_notANumber] at h
    cases h
  | false =>
    cases u with
    | notANumber => cases (defined_of_add hnan).1
    | infinity s =>
      rw [add_infinity_left hnan, repack_infinity] at h
      cases h
    | _ => rfl

/-- Adding what is not positive does not lead upwards. -/
theorem scaled_add_le_left (hS : S.minExponent ≤ maxExponent S) (hu : Representable S u)
    (hv : Representable S v) (hdefined : (add S u v).isNaN = false) (h : scaled S v ≤ 0) :
    scaled S (repack S (add S u v)) ≤ scaled S u := by
  obtain ⟨hun, hvn⟩ := defined_of_add hdefined
  cases hfinite : u.isFinite with
  | true => exact scaled_add_le hS hu hv hfinite h hvn
  | false =>
    cases u with
    | notANumber => cases hun
    | infinity s => rw [add_infinity_left hdefined, repack_infinity]
    | zero s => cases hfinite
    | finite s m e hm => cases hfinite

/-- Adding what is not negative does not lead downwards. -/
theorem le_scaled_add_left (hS : S.minExponent ≤ maxExponent S) (hu : Representable S u)
    (hv : Representable S v) (hdefined : (add S u v).isNaN = false) (h : 0 ≤ scaled S v) :
    scaled S u ≤ scaled S (repack S (add S u v)) := by
  have hneg : (add S u.neg v.neg).isNaN = false := by
    rcases add_neg S u v with heq | ⟨heq, -⟩ <;> rw [heq]
    · rw [isNaN_neg, hdefined]
    · rfl
  have hle := scaled_add_le_left hS hu.neg hv.neg hneg (by rw [scaled_neg]; omega)
  rw [scaled_neg] at hle
  rcases add_neg S u v with heq | ⟨heq, heq'⟩
  · rw [heq, repack_neg, scaled_neg] at hle
    omega
  · rw [heq, repack_zero, scaled_zero] at hle
    rw [heq', repack_zero, scaled_zero]
    omega

/-- A sum of finite numbers does not lead over a finite number that its exact value is not over. -/
theorem scaled_add_le_of_le (hS : S.minExponent ≤ maxExponent S) (hu : Representable S u)
    (hv : Representable S v) (hw : Representable S w) (hfu : u.isFinite = true)
    (hfv : v.isFinite = true) (hfw : w.isFinite = true) (h : scaled S u + scaled S v ≤ scaled S w) :
    scaled S (repack S (add S u v)) ≤ scaled S w := by
  obtain ⟨hcanonical, hle⟩ := add_le_of_le hu hv hw hfu hfv hfw h
  exact scaled_repack_le hS hcanonical hw hfw hle

end Sums

section Storing

/-- Storing a number that is not negative does not lead upwards. -/
theorem scaled_repack_le_self (hS : S.minExponent ≤ maxExponent S) (hv : Canonical S v)
    (h : 0 ≤ scaled S v) : scaled S (repack S v) ≤ scaled S v := by
  have htop := top_pos S
  rcases repack_cases hS hv with ⟨-, heq⟩ | ⟨t, heq, hlarge⟩
  · rw [heq]
  · rw [heq]
    cases t with
    | negative =>
      change (top S : Int) ≤ -scaled S v at hlarge
      omega
    | positive => exact hlarge

theorem scaled_repack_pos (hS : S.minExponent ≤ maxExponent S) (hv : Canonical S v)
    (h : 0 < scaled S v) : 0 < scaled S (repack S v) := by
  have htop := top_pos S
  rcases repack_cases hS hv with ⟨-, heq⟩ | ⟨t, heq, hlarge⟩
  · rwa [heq]
  · rw [heq]
    cases t with
    | negative =>
      change (top S : Int) ≤ -scaled S v at hlarge
      omega
    | positive => exact Int.natCast_pos.mpr htop

end Storing

section Halving

/-- The number two of a format. -/
def two (S : Format) : UnpackedFloat :=
  .finite .positive (2 ^ S.mantissaBitsWithoutImplicit) (1 - S.mantissaBitsWithoutImplicit)
    (Nat.two_pow_pos _)

theorem shiftRight_mul_two_pow (m j i : Nat) :
    ExtendedMantissa.ofMantissaAndAccuracy (m * 2 ^ j) .exact >>> (j + i) =
      ExtendedMantissa.ofMantissaAndAccuracy m .exact >>> i := by
  induction i with
  | zero =>
    obtain ⟨r, s, hshift, hbits⟩ := shiftRight_exact (m * 2 ^ j) j
    obtain ⟨rfl, rfl⟩ := hbits (Nat.dvd_mul_left _ m)
    rw [Nat.add_zero, hshift, Nat.mul_div_cancel _ (Nat.two_pow_pos j)]
    rfl
  | succ i ih => exact congrArg ExtendedMantissa.shiftRightOne ih

/-- Empty bits at the end of a mantissa are dropped without a trace. -/
theorem roundWithAccuracy_mul_two_pow (s : Sign) (hm : 0 < m) (j : Nat)
    (htarget : e ≤ S.targetExponent (totalExponent m e)) :
    roundWithAccuracy S s (m * 2 ^ j) (e - j) .exact = roundWithAccuracy S s m e .exact := by
  have htotal : totalExponent (m * 2 ^ j) (e - j) = totalExponent m e := by
    unfold totalExponent
    rw [log2_mul_two_pow hm]
    omega
  have hshift : shiftToTargetExponent S (m * 2 ^ j) (e - j) .exact =
      shiftToTargetExponent S m e .exact := by
    simp only [shiftToTargetExponent, shiftToExponent, htotal]
    obtain ⟨t, ht⟩ : ∃ t, S.targetExponent (totalExponent m e) = t := ⟨_, rfl⟩
    rw [ht] at htarget ⊢
    have hdistance : (t - (e - j)).toNat = j + (t - e).toNat := by omega
    rw [hdistance, shiftRight_mul_two_pow]
    exact Prod.ext rfl (by push_cast; omega)
  simp only [roundWithAccuracy, hshift]

theorem Fits.log2_eq (h : Fits S m e) (hm : 2 ^ S.mantissaBitsWithoutImplicit ≤ m) :
    m.log2 = S.mantissaBitsWithoutImplicit := by
  have hpos : m ≠ 0 := ((Nat.two_pow_pos _).trans_le hm).ne'
  have hlow := (Nat.le_log2 hpos).mpr hm
  have hhigh := (Nat.log2_lt hpos).mpr h.lt
  unfold Format.mantissaBits at hhigh
  omega

/-- A mantissa without empty bits at its front needs no shift. -/
theorem le_targetExponent (hlog : m.log2 = S.mantissaBitsWithoutImplicit) (e : Int) :
    e ≤ S.targetExponent (totalExponent m e) := by
  unfold Format.targetExponent totalExponent Format.mantissaBits
  omega

theorem mul_two_eq (s : Sign) (hm : 0 < m) :
    mul S (.finite s m e hm) (two S) = roundWithAccuracy S (s * .positive)
      (m * 2 ^ S.mantissaBitsWithoutImplicit) (e + (1 - S.mantissaBitsWithoutImplicit)) .exact :=
  rfl

/-- Doubling raises the exponent, or the mantissa where there are empty bits at its front. -/
theorem mul_two_cases (s : Sign) (hm : 0 < m) (h : Fits S m e) :
    ∃ M E, 0 < M ∧ S.minExponent ≤ E ∧ E ≤ S.targetExponent (totalExponent M E) ∧
      mul S (.finite s m e hm) (two S) = roundWithAccuracy S (s * .positive) M E .exact := by
  have hleast := h.least
  have hk := S.hm
  rw [mul_two_eq]
  by_cases hnormal : 2 ^ S.mantissaBitsWithoutImplicit ≤ m
  · have htarget := le_targetExponent (h.log2_eq hnormal) (e + 1)
    refine ⟨m, e + 1, hm, by omega, htarget, ?_⟩
    rw [← roundWithAccuracy_mul_two_pow _ hm S.mantissaBitsWithoutImplicit htarget]
    congr 1
    omega
  · obtain rfl : e = S.minExponent := h.leading.resolve_left hnormal
    have htarget : S.minExponent ≤ S.targetExponent (totalExponent (m * 2) S.minExponent) := by
      unfold Format.targetExponent
      omega
    refine ⟨m * 2, S.minExponent, by omega, le_refl _, htarget, ?_⟩
    rw [← roundWithAccuracy_mul_two_pow _ (by omega) (S.mantissaBitsWithoutImplicit - 1) htarget]
    congr 1
    · rw [Nat.mul_assoc, ← Nat.pow_succ']
      congr 2
      omega
    · omega

/-- What is positive is not lost when it is doubled. -/
theorem mul_two_pos (hS : S.minExponent ≤ maxExponent S) (hu : Representable S u)
    (h : 0 < scaled S u) : 0 < scaled S (repack S (mul S u (two S))) := by
  have hsign := (scaled_nonneg_iff S u).mp h.le
  cases u with
  | notANumber => cases h
  | zero s => cases h
  | infinity s =>
    obtain rfl : s = .positive := hsign
    have hmul : mul S (.infinity .positive) (two S) = .infinity .positive := rfl
    rw [hmul, repack_infinity]
    exact h
  | finite s m e hm =>
    obtain rfl : s = .positive := hsign
    obtain ⟨M, E, hM, hE, htarget, hmul⟩ := mul_two_cases .positive hm hu.1
    obtain ⟨m', e', hm', heq, hfits, -⟩ :=
      roundWithAccuracy_exact (.positive * .positive) hM hE htarget
    rw [hmul, heq]
    exact scaled_repack_pos hS hfits (Int.natCast_pos.mpr (mul_two_pow_height_pos hm'))

@[simp]
theorem mantissa_ofMantissaAndAccuracy (m : Nat) (a : Accuracy) :
    (ExtendedMantissa.ofMantissaAndAccuracy m a).mantissa = m := by
  unfold ExtendedMantissa.ofMantissaAndAccuracy
  split <;> rfl

theorem height_least (S : Format) : height S S.minExponent = 0 := by
  unfold height
  omega

/-- At the least exponent only the remainder is rounded. -/
theorem scaled_roundWithAccuracy_least (hS : S.minExponent ≤ maxExponent S)
    (hm : m + 1 < 2 ^ S.mantissaBits) (a : Accuracy) :
    scaled S (repack S (roundWithAccuracy S .positive m S.minExponent a)) =
      ((ExtendedMantissa.ofMantissaAndAccuracy m a).roundedMantissa : Nat) := by
  obtain ⟨r, hr⟩ : ∃ r, (ExtendedMantissa.ofMantissaAndAccuracy m a).roundedMantissa = r :=
    ⟨_, rfl⟩
  have hbound : r < 2 ^ S.mantissaBits := by
    have hcases := roundedMantissa_cases (ExtendedMantissa.ofMantissaAndAccuracy m a)
    rw [mantissa_ofMantissaAndAccuracy, hr] at hcases
    omega
  have hfirst := shiftToTargetExponent_of_lt (Nat.lt_of_succ_lt hm) (le_refl S.minExponent) a
  have hsecond := shiftToTargetExponent_of_lt hbound (le_refl S.minExponent) .exact
  simp only [roundWithAccuracy, hfirst, hr, hsecond, mantissa_ofMantissaAndAccuracy]
  split
  next h0 =>
    rw [repack_zero, scaled_zero, h0]
    rfl
  next h0 =>
    have hrep : Representable S (.finite .positive r S.minExponent (Nat.pos_of_ne_zero h0)) :=
      ⟨⟨hbound, le_refl _, .inr rfl⟩, hS⟩
    rw [repack_of_representable hrep]
    simp only [scaled, Sign.apply, height_least, Nat.pow_zero, Nat.mul_one]

theorem div_two_eq (s : Sign) (hm : 0 < m) {x : Int}
    (hx : min (e - (1 - S.mantissaBitsWithoutImplicit)) (S.targetExponent
      (totalExponent m e - totalExponent (2 ^ S.mantissaBitsWithoutImplicit)
        (1 - S.mantissaBitsWithoutImplicit))) = x) :
    div S (.finite s m e hm) (two S) = roundWithAccuracy S (s / .positive)
      (m * 2 ^ (e - (1 - S.mantissaBitsWithoutImplicit) - x).toNat /
        2 ^ S.mantissaBitsWithoutImplicit) x
      (accuracyOfFraction (m * 2 ^ (e - (1 - S.mantissaBitsWithoutImplicit) - x).toNat %
        2 ^ S.mantissaBitsWithoutImplicit) (2 ^ S.mantissaBitsWithoutImplicit)) := by
  subst hx
  rw [← Nat.shiftLeft_eq]
  rfl

theorem totalExponent_two (k : Nat) : totalExponent (2 ^ k) (1 - k) = 2 := by
  unfold totalExponent
  rw [Nat.log2_two_pow]
  omega

/-- Above the least exponent halving is exact. -/
theorem div_two_above (s : Sign) (hm : 0 < m) (h : Fits S m e) (he : S.minExponent < e) :
    div S (.finite s m e hm) (two S) = roundWithAccuracy S (s / .positive) m (e - 1) .exact := by
  have hlog : m.log2 = S.mantissaBitsWithoutImplicit :=
    h.log2_eq (h.leading.resolve_right he.ne')
  obtain ⟨x, hx⟩ : ∃ x, max (e - 2) S.minExponent = x := ⟨_, rfl⟩
  have htarget : min (e - (1 - S.mantissaBitsWithoutImplicit)) (S.targetExponent
      (totalExponent m e - totalExponent (2 ^ S.mantissaBitsWithoutImplicit)
        (1 - S.mantissaBitsWithoutImplicit))) = x := by
    rw [totalExponent_two]
    unfold Format.targetExponent totalExponent Format.mantissaBits
    omega
  obtain ⟨i, hi⟩ : ∃ i : Nat, e - 1 - x = i := ⟨(e - 1 - x).toNat, by omega⟩
  have hshift : (e - (1 - S.mantissaBitsWithoutImplicit) - x).toNat =
      i + S.mantissaBitsWithoutImplicit := by omega
  have hexponent : x = e - 1 - i := by omega
  rw [div_two_eq s hm htarget, hshift, Nat.pow_add, ← Nat.mul_assoc,
    Nat.mul_div_cancel _ (Nat.two_pow_pos _), Nat.mul_mod_left, hexponent]
  exact roundWithAccuracy_mul_two_pow _ hm i (le_targetExponent hlog (e - 1))

/-- At the least exponent halving leaves a remainder of one half at most. -/
theorem div_two_least (s : Sign) (hm : 0 < m) (h : Fits S m S.minExponent) :
    ∃ a, div S (.finite s m S.minExponent hm) (two S) =
      roundWithAccuracy S (s / .positive) (m / 2) S.minExponent a ∧ (m % 2 = 0 → a = .exact) := by
  have hk := S.hm
  have htwo : 2 ^ S.mantissaBitsWithoutImplicit = 2 * 2 ^ (S.mantissaBitsWithoutImplicit - 1) := by
    rw [← Nat.pow_succ']
    congr 1
    omega
  have hpow : 0 < 2 ^ (S.mantissaBitsWithoutImplicit - 1) := Nat.two_pow_pos _
  have hlog : m.log2 < S.mantissaBits := (Nat.log2_lt hm.ne').mpr h.lt
  have htarget : min (S.minExponent - (1 - S.mantissaBitsWithoutImplicit)) (S.targetExponent
      (totalExponent m S.minExponent - totalExponent (2 ^ S.mantissaBitsWithoutImplicit)
        (1 - S.mantissaBitsWithoutImplicit))) = S.minExponent := by
    rw [totalExponent_two]
    unfold Format.targetExponent totalExponent
    unfold Format.mantissaBits at hlog ⊢
    omega
  have hshift : (S.minExponent - (1 - S.mantissaBitsWithoutImplicit) - S.minExponent).toNat =
      S.mantissaBitsWithoutImplicit - 1 := by omega
  rw [div_two_eq s hm htarget, hshift, htwo, Nat.mul_div_mul_right _ _ hpow,
    Nat.mul_mod_mul_right]
  refine ⟨_, rfl, fun heven => ?_⟩
  rw [heven, Nat.zero_mul]
  rfl

theorem two_mul_scaled_half_least (hS : S.minExponent ≤ maxExponent S) (hm : 0 < m)
    (h : Fits S m S.minExponent) :
    2 * scaled S (repack S (div S (.finite .positive m S.minExponent hm) (two S))) ≤
      ((m + m % 2 : Nat) : Int) := by
  obtain ⟨a, hdiv, hexact⟩ := div_two_least .positive hm h
  have hbound : m / 2 + 1 < 2 ^ S.mantissaBits := by
    have := two_pow_mantissaBits S
    have := h.lt
    omega
  have hround : scaled S (repack S (roundWithAccuracy S (.positive / .positive) (m / 2)
      S.minExponent a)) = _ := scaled_roundWithAccuracy_least hS hbound a
  rw [hdiv, hround]
  rcases Nat.mod_two_eq_zero_or_one m with heven | hodd
  · obtain rfl := hexact heven
    have hrounded : (ExtendedMantissa.ofMantissaAndAccuracy (m / 2) .exact).roundedMantissa =
        m / 2 := rfl
    omega
  · have hcases := roundedMantissa_cases (ExtendedMantissa.ofMantissaAndAccuracy (m / 2) a)
    rw [mantissa_ofMantissaAndAccuracy] at hcases
    omega

theorem two_mul_scaled_half_above (hS : S.minExponent ≤ maxExponent S) (hm : 0 < m)
    (h : Fits S m e) (he : S.minExponent < e) :
    2 * scaled S (repack S (div S (.finite .positive m e hm) (two S))) ≤
      ((m * 2 ^ height S e : Nat) : Int) := by
  have htarget := le_targetExponent (h.log2_eq (h.leading.resolve_right he.ne')) (e - 1)
  obtain ⟨m', e', hm', heq, hfits, hround⟩ :=
    roundWithAccuracy_exact (S := S) (.positive / .positive) hm (by omega) htarget
  have hle := hround.le (mul_two_pow_height_pos hm) h.lt (le_refl _)
  have hheight : height S e = height S (e - 1) + 1 := by
    unfold height
    omega
  have hhalf : scaled S (.finite (.positive / .positive) m' e' hm') =
      (m' * 2 ^ height S e' : Nat) := rfl
  have hcanonical : Canonical S (.finite (.positive / .positive) m' e' hm') := hfits
  have hstored := scaled_repack_le_self hS hcanonical (hhalf ▸ Int.natCast_nonneg _)
  rw [hhalf] at hstored
  rw [div_two_above .positive hm h he, heq, hheight, Nat.pow_succ, ← Nat.mul_assoc]
  omega

/-- Halving is exact but for an odd number at the least exponent, which is rounded up at most. -/
theorem two_mul_scaled_half_le (hS : S.minExponent ≤ maxExponent S) (hu : Representable S u)
    (hfinite : u.isFinite = true) (h : 0 ≤ scaled S u) :
    2 * scaled S (repack S (div S u (two S))) ≤ scaled S u + scaled S u % 2 := by
  have hsign := (scaled_nonneg_iff S u).mp h
  cases u with
  | notANumber => cases hfinite
  | infinity s => cases hfinite
  | zero s =>
    have hdiv : div S (.zero s) (two S) = .zero (s / .positive) := rfl
    rw [hdiv, repack_zero]
    rfl
  | finite s m e hm =>
    obtain rfl : s = .positive := hsign
    have hvalue : scaled S (.finite .positive m e hm) = (m * 2 ^ height S e : Nat) := rfl
    rw [hvalue]
    rcases hu.1.least.eq_or_lt with rfl | hleast
    · have hhalf := two_mul_scaled_half_least hS hm hu.1
      rw [height_least, Nat.pow_zero, Nat.mul_one]
      omega
    · have hhalf := two_mul_scaled_half_above hS hm hu.1 hleast
      omega

end Halving

section Differences

theorem IsRounding.le_two_mul {p X R : Nat} (h : IsRounding p X R) (hp : 0 < p) (hX : 0 < X) :
    R ≤ 2 * X := by
  have hlow : 2 ^ X.log2 ≤ X := Nat.log2_self_le hX.ne'
  have hhigh : X ≤ 1 * 2 ^ (X.log2 + 1) := by
    rw [Nat.one_mul]
    exact Nat.lt_log2_self.le
  have hle := h.le hX (Nat.one_lt_two_pow hp.ne') hhigh
  rw [Nat.one_mul, Nat.pow_succ] at hle
  omega

/-- A number with few bits is not what a number with more bits is rounded to. -/
theorem IsRounding.eq_of_lt {p X R : Nat} (h : IsRounding p X R) (hp : 0 < p) (hX : 0 < X)
    (hR : R < 2 ^ p) : R = X := by
  have hlow : 1 * 2 ^ X.log2 ≤ R := by
    apply h.ge hp hX (Nat.one_lt_two_pow hp.ne')
    rw [Nat.one_mul]
    exact Nat.log2_self_le hX.ne'
  have hlog : X.log2 < p := by
    apply (Nat.pow_lt_pow_iff_right (by decide : 1 < 2)).mp
    omega
  have hunit : unit p X = 1 := by
    rw [unit, show X.log2 + 1 - p = 0 by omega, Nat.pow_zero]
  exact h.exact (hunit ▸ one_dvd X)

theorem two_dvd_top (S : Format) : (2 : Int) ∣ top S := by
  have := mantissaBits_pos S
  refine Int.natCast_dvd_natCast.mpr (dvd_pow_self 2 ?_)
  omega

/-- What is known of the value that an exact one is rounded to: it is doubled at most, and it is
kept where the result is odd. -/
structure IsClose (exact rounded : Int) : Prop where
  le : rounded ≤ 2 * exact
  eq : rounded % 2 = 1 → rounded = exact

theorem isClose_self {x : Int} (h : 0 ≤ x) : IsClose x x := ⟨by omega, fun _ => rfl⟩

theorem isClose_round (hS : S.minExponent ≤ maxExponent S) (hm : 0 < m) (he : S.minExponent ≤ e) :
    IsClose (m * 2 ^ height S e : Nat)
      (scaled S (repack S (UnpackedFloat.round S .positive m e))) := by
  obtain ⟨m', e', hm', heq, hfits, hround⟩ := round_exact (S := S) .positive hm he
  have hX : 0 < m * 2 ^ height S e := mul_two_pow_height_pos hm
  have hdouble := hround.le_two_mul (mantissaBits_pos S) hX
  have hvalue : scaled S (.finite .positive m' e' hm') = (m' * 2 ^ height S e' : Nat) := rfl
  have hcanonical : Canonical S (.finite .positive m' e' hm') := hfits
  rw [heq]
  rcases repack_cases hS hcanonical with ⟨-, hkept⟩ | ⟨t, hkept, hlarge⟩
  · rw [hkept, hvalue]
    refine ⟨by omega, fun hodd => ?_⟩
    have hheight : height S e' = 0 := by
      by_contra hne
      have heven : 2 ∣ m' * 2 ^ height S e' := Nat.dvd_mul_left_of_dvd (dvd_pow_self 2 hne) m'
      omega
    have hfew : m' * 2 ^ height S e' < 2 ^ S.mantissaBits := by
      rw [hheight, Nat.pow_zero, Nat.mul_one]
      exact hfits.lt
    rw [hround.eq_of_lt (mantissaBits_pos S) hX hfew]
  · have htop := top_pos S
    have heven := two_dvd_top S
    rw [hkept]
    rw [hvalue] at hlarge
    cases t <;> simp only [scaled, Sign.apply] at hlarge ⊢ <;> constructor <;> omega

/-- A sum that is not negative is rounded to its double at most, and is exact where it is odd. -/
theorem isClose_add (hS : S.minExponent ≤ maxExponent S) (hu : Representable S u)
    (hv : Representable S v) (hfu : u.isFinite = true) (hfv : v.isFinite = true)
    (h : 0 ≤ scaled S u + scaled S v) :
    IsClose (scaled S u + scaled S v) (scaled S (repack S (add S u v))) := by
  have hexact {w : UnpackedFloat} (heq : add S u v = w) (hw : Representable S w)
      (hvalue : scaled S w = scaled S u + scaled S v) :
      IsClose (scaled S u + scaled S v) (scaled S (repack S (add S u v))) := by
    rw [heq, repack_of_representable hw, hvalue]
    exact isClose_self h
  cases u with
  | notANumber => cases hfu
  | infinity s => cases hfu
  | zero s =>
    cases v with
    | notANumber => cases hfv
    | infinity t => cases hfv
    | zero t => cases s <;> cases t <;> exact hexact rfl trivial rfl
    | finite t n e hn => exact hexact rfl hv (Int.zero_add _).symm
  | finite s m d hm =>
    cases v with
    | notANumber => cases hfv
    | infinity t => cases hfv
    | zero t => exact hexact rfl hu (Int.add_zero _).symm
    | finite t n e hn =>
      obtain ⟨M, x, hadd, hx, hvalue⟩ := add_finite (s := s) (t := t) hu.1.least hv.1.least hm hn
      rw [← hvalue] at h ⊢
      have hpow : 0 < ((2 ^ height S x : Nat) : Int) := by exact_mod_cast Nat.two_pow_pos _
      have hM : 0 ≤ M := nonneg_of_mul_nonneg_left h hpow
      rw [hadd]
      rcases hM.eq_or_lt with rfl | hM
      · rw [normalize_zero, repack_zero, scaled_zero, Int.zero_mul]
        exact isClose_self (le_refl 0)
      · rw [normalize_of_pos hM]
        have hround := isClose_round hS (m := M.toNat) (by omega) hx
        rwa [Int.natCast_mul, Int.toNat_of_nonneg hM.le] at hround

end Differences

end Autodiff.Binary
