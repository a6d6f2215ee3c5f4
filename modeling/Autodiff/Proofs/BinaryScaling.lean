import Autodiff.Proofs.BinaryHalving

namespace Autodiff.Binary

open Float.Model (Format UnpackedFloat totalExponent)
open Float.Model.UnpackedFloat

variable {S : Format} {u v : UnpackedFloat} {m n M : Nat} {d e x y t : Int} {a : Accuracy}

section Rounding

theorem mantissa_shiftRight (m k : Nat) (a : Accuracy) :
    (ExtendedMantissa.ofMantissaAndAccuracy m a >>> k).mantissa = m / 2 ^ k := by
  induction k with
  | zero =>
    rw [Nat.pow_zero, Nat.div_one]
    exact mantissa_ofMantissaAndAccuracy m a
  | succ k ih =>
    have hstep : (ExtendedMantissa.ofMantissaAndAccuracy m a >>> (k + 1)).mantissa =
        (ExtendedMantissa.ofMantissaAndAccuracy m a >>> k).mantissa / 2 := rfl
    rw [hstep, ih, Nat.div_div_eq_div_mul, Nat.pow_succ]

/-- How a mantissa is rounded where it is shifted by `k` bits: down or up, and not at all where it
is exact and loses no bits. -/
structure Rounds (M k : Nat) (a : Accuracy) (r : Nat) : Prop where
  cases : r = M / 2 ^ k ∨ r = M / 2 ^ k + 1
  exact : a = .exact → 2 ^ k ∣ M → r = M / 2 ^ k

theorem Rounds.bounds {k r : Nat} (h : Rounds M k a r) : M / 2 ^ k ≤ r ∧ r ≤ M / 2 ^ k + 1 := by
  rcases h.cases with rfl | rfl <;> omega

theorem rounds_shiftRight (M k : Nat) (a : Accuracy) :
    Rounds M k a (ExtendedMantissa.ofMantissaAndAccuracy M a >>> k).roundedMantissa := by
  constructor
  · rw [← mantissa_shiftRight M k a]
    exact roundedMantissa_cases _
  · rintro rfl hd
    exact (roundedMantissa_shiftRight M k).2.2 hd

/-- Above the least exponent no bit of what is left of a mantissa is empty, even if the mantissa
was zero. -/
theorem quotient_fits (hx : x ≤ t) (ht : S.targetExponent (totalExponent M x) = t) :
    Fits S (M / 2 ^ (t - x).toNat) t := by
  have hk := S.hm
  refine ⟨quotient_lt ht rfl, ?_, ?_⟩
  · unfold Format.targetExponent at ht
    omega
  · rcases M.eq_zero_or_pos with rfl | hM
    · right
      unfold Format.targetExponent totalExponent Format.mantissaBits at ht
      rw [Nat.log2_zero] at ht
      omega
    · exact quotient_leading hM hx ht rfl

/-- Rounding in a format, where the exponent given is not too large. -/
theorem roundWithAccuracy_rounds (s : Sign) (a : Accuracy) (hx : x ≤ t)
    (ht : S.targetExponent (totalExponent M x) = t) :
    ∃ r, Rounds M (t - x).toNat a r ∧ Canonical S (roundWithAccuracy S s M x a) ∧
      scaled S (roundWithAccuracy S s M x a) = s.apply ((r * 2 ^ height S t : Nat) : Int) := by
  have hfits := quotient_fits hx ht
  obtain ⟨k, hk⟩ : ∃ k, (t - x).toNat = k := ⟨_, rfl⟩
  rw [hk] at hfits ⊢
  obtain ⟨r, hr⟩ :
      ∃ r, (ExtendedMantissa.ofMantissaAndAccuracy M a >>> k).roundedMantissa = r := ⟨_, rfl⟩
  have hrounds : Rounds M k a r := hr ▸ rounds_shiftRight M k a
  have hbounds := hrounds.bounds
  have hfirst : shiftToTargetExponent S M x a =
      (ExtendedMantissa.ofMantissaAndAccuracy M a >>> k, t) := by
    rw [shiftToTargetExponent, shiftToExponent, ht, hk]
    exact Prod.ext rfl (by push_cast; omega)
  refine ⟨r, hrounds, ?_⟩
  rcases r.eq_zero_or_pos with rfl | hpos
  · have hsecond := shiftToTargetExponent_of_lt (S := S) (Nat.two_pow_pos _) hfits.least .exact
    have hzero : roundWithAccuracy S s M x a = .zero s := by
      simp only [roundWithAccuracy, hfirst, hr, hsecond, mantissa_ofMantissaAndAccuracy, dite_true]
    rw [hzero, Nat.zero_mul]
    exact ⟨trivial, by cases s <;> rfl⟩
  · have hbound : r ≤ 2 ^ S.mantissaBits := hbounds.2.trans hfits.lt
    have hlead : 2 ^ S.mantissaBitsWithoutImplicit ≤ r ∨ t = S.minExponent :=
      hfits.leading.imp_left fun h => h.trans hbounds.1
    obtain ⟨em, t', hsecond, hfits', hsame⟩ :=
      shiftToTargetExponent_carry hbound hpos hfits.least hlead
    have hpos' : 0 < em.mantissa :=
      Nat.pos_of_mul_pos_right (hsame ▸ Nat.mul_pos hpos (Nat.two_pow_pos (height S t)))
    have hfinite : roundWithAccuracy S s M x a = .finite s em.mantissa t' hpos' := by
      simp only [roundWithAccuracy, hfirst, hr, hsecond]
      rw [dif_neg hpos'.ne']
    rw [hfinite, ← hsame]
    exact ⟨hfits', rfl⟩

theorem two_pow_toNat_split (hxt : x ≤ t) (hte : t ≤ e) :
    2 ^ (e - x).toNat = 2 ^ (e - t).toNat * 2 ^ (t - x).toNat := by
  rw [← Nat.pow_add]
  congr 1
  omega

theorem two_pow_height_split (hleast : S.minExponent ≤ t) (hte : t ≤ e) :
    2 ^ height S e = 2 ^ (e - t).toNat * 2 ^ height S t :=
  two_pow_toNat_split hleast hte

/-- Rounding what is no less than a number of the format does not lead under it. -/
theorem Rounds.ge {r : Nat} (h : Rounds M (t - x).toNat a r) (hx : x ≤ t)
    (ht : S.targetExponent (totalExponent M x) = t) (hn : Fits S n e)
    (hM : x ≤ e → n * 2 ^ (e - x).toNat ≤ M) : n * 2 ^ height S e ≤ r * 2 ^ height S t := by
  have hfits := quotient_fits hx ht
  have hfloor := h.bounds.1
  by_cases he : e < t
  · exact (hn.lt_of_exponent_lt hfits he).le.trans (Nat.mul_le_mul_right _ hfloor)
  · have hte : t ≤ e := not_lt.mp he
    have hle := hM (hx.trans hte)
    rw [two_pow_toNat_split hx hte, ← Nat.mul_assoc] at hle
    have hquotient := (Nat.le_div_iff_mul_le (Nat.two_pow_pos _)).mpr hle
    rw [two_pow_height_split hfits.least hte, ← Nat.mul_assoc]
    exact Nat.mul_le_mul_right _ (hquotient.trans hfloor)

/-- Rounding what is no more than a number of the format does not lead over it. -/
theorem Rounds.le {r : Nat} (h : Rounds M (t - x).toNat a r) (hx : x ≤ t)
    (ht : S.targetExponent (totalExponent M x) = t) (hn : Fits S n e) (hxe : x ≤ e)
    (hM : M ≤ n * 2 ^ (e - x).toNat) (hexact : a ≠ .exact → M < n * 2 ^ (e - x).toNat) :
    r * 2 ^ height S t ≤ n * 2 ^ height S e := by
  have hfits := quotient_fits hx ht
  have hfloor : M / 2 ^ (t - x).toNat * 2 ^ (t - x).toNat ≤ M := Nat.div_mul_le_self _ _
  by_cases he : e < t
  · -- Then the number would have more bits than the format.
    have hlead := hfits.leading.resolve_right (hn.least.trans_lt he).ne'
    have hscaled : 2 ^ S.mantissaBitsWithoutImplicit * 2 ^ (t - e).toNat * 2 ^ (e - x).toNat ≤
        n * 2 ^ (e - x).toNat := by
      rw [Nat.mul_assoc, ← two_pow_toNat_split hxe he.le]
      exact (Nat.mul_le_mul_right _ hlead).trans (hfloor.trans hM)
    have htwo : 2 ^ 1 ≤ 2 ^ (t - e).toNat := Nat.pow_le_pow_right (by decide) (by omega)
    have hlarge := (Nat.mul_le_mul_left (2 ^ S.mantissaBitsWithoutImplicit) htwo).trans
      (Nat.le_of_mul_le_mul_right hscaled (Nat.two_pow_pos _))
    have hlt := hn.lt
    rw [two_pow_mantissaBits] at hlt
    omega
  · have hte : t ≤ e := not_lt.mp he
    rw [two_pow_toNat_split hx hte, ← Nat.mul_assoc] at hM hexact
    rw [two_pow_height_split hfits.least hte, ← Nat.mul_assoc]
    apply Nat.mul_le_mul_right
    rcases (Nat.div_le_of_le_mul (Nat.mul_comm _ _ ▸ hM)).lt_or_eq with hlt | heq
    · exact h.bounds.2.trans hlt
    · rw [heq] at hfloor
      have hM' : M = n * 2 ^ (e - t).toNat * 2 ^ (t - x).toNat := le_antisymm hM hfloor
      have ha : a = .exact := by
        by_contra ha
        exact (hexact ha).ne hM'
      rw [h.exact ha ⟨_, hM'.trans (Nat.mul_comm _ _)⟩, heq]

/-- Storing what is no less than a number that is not negative does not lead under it. -/
theorem le_scaled_repack (hS : S.minExponent ≤ maxExponent S) (hv : Canonical S v)
    (hu : Representable S u) (hpos : 0 ≤ scaled S u) (h : scaled S u ≤ scaled S v) :
    scaled S u ≤ scaled S (repack S v) := by
  have htop := top_pos S
  rcases repack_cases hS hv with ⟨-, heq⟩ | ⟨t, heq, hlarge⟩
  · rwa [heq]
  · rw [heq]
    cases t with
    | negative =>
      change (top S : Int) ≤ -scaled S v at hlarge
      omega
    | positive => exact scaled_le_top hu

end Rounding

section One

theorem leading_pos (S : Format) : 0 < 2 ^ S.mantissaBitsWithoutImplicit := Nat.two_pow_pos _

/-- The number one of a format. -/
def one (S : Format) : UnpackedFloat :=
  .finite .positive (2 ^ S.mantissaBitsWithoutImplicit) (-S.mantissaBitsWithoutImplicit)
    (leading_pos S)

/-- A mantissa and an exponent of at least those of one. -/
structure FromOne (S : Format) (n : Nat) (y : Int) : Prop where
  mantissa : 2 ^ S.mantissaBitsWithoutImplicit ≤ n
  exponent : -S.mantissaBitsWithoutImplicit ≤ y

theorem minExponent_le_one (hS : S.minExponent ≤ maxExponent S) :
    S.minExponent ≤ -S.mantissaBitsWithoutImplicit := by
  have hmin := minExponent_eq S
  unfold maxExponent at hS
  omega

theorem representable_one (hS : S.minExponent ≤ maxExponent S) : Representable S (one S) := by
  have htwo := two_pow_mantissaBits S
  have hpow := leading_pos S
  refine ⟨⟨by omega, minExponent_le_one hS, .inl (le_refl _)⟩, ?_⟩
  unfold maxExponent
  omega

theorem Fits.fromOne (hS : S.minExponent ≤ maxExponent S) (h : Fits S n y)
    (hle : scaled S (one S) ≤ ((n * 2 ^ height S y : Nat) : Int)) : FromOne S n y := by
  have hvalue : scaled S (one S) = (2 ^ S.mantissaBitsWithoutImplicit *
    2 ^ height S (-S.mantissaBitsWithoutImplicit) : Nat) := rfl
  rw [hvalue, Int.ofNat_le] at hle
  have hexponent : -S.mantissaBitsWithoutImplicit ≤ y := by
    by_contra hlt
    exact not_lt.mpr hle (h.lt_of_exponent_lt (representable_one hS).1 (not_le.mp hlt))
  refine ⟨?_, hexponent⟩
  rcases h.leading with hlead | hleast
  · exact hlead
  · obtain rfl : y = -S.mantissaBitsWithoutImplicit := by
      have := minExponent_le_one hS
      omega
    exact Nat.le_of_mul_le_mul_right hle (Nat.two_pow_pos _)

/-- A number from one on is infinite, or its mantissa and its exponent are from those of one on. -/
theorem fromOne_cases (hS : S.minExponent ≤ maxExponent S) (hv : Representable S v)
    (h : scaled S (one S) ≤ scaled S v) :
    v = .infinity .positive ∨ ∃ n y hn, v = .finite .positive n y hn ∧ FromOne S n y := by
  have hone : 0 < scaled S (one S) :=
    Int.natCast_pos.mpr (mul_two_pow_height_pos (leading_pos S))
  have hsign := (scaled_nonneg_iff S v).mp (hone.le.trans h)
  cases v with
  | notANumber => exact absurd h (not_le.mpr hone)
  | zero t => exact absurd h (not_le.mpr hone)
  | infinity t =>
    obtain rfl : t = .positive := hsign
    exact .inl rfl
  | finite t n y hn =>
    obtain rfl : t = .positive := hsign
    exact .inr ⟨n, y, hn, rfl, hv.1.fromOne hS h⟩

theorem isFinite_of_le_one (hS : S.minExponent ≤ maxExponent S) (hdefined : u.isNaN = false)
    (hnonneg : 0 ≤ scaled S u) (h : scaled S u ≤ scaled S (one S)) : u.isFinite = true := by
  have htop := top_pos S
  have hone := (scaled_lt_top (representable_one hS) rfl).2
  exact isFinite_of_lt_top hdefined (by omega) (h.trans_lt hone)

end One

section Products

theorem le_targetExponent_of_le (hM : 2 ^ S.mantissaBitsWithoutImplicit ≤ M) (x : Int) :
    x ≤ S.targetExponent (totalExponent M x) := by
  have hlog := (Nat.le_log2 ((leading_pos S).trans_le hM).ne').mpr hM
  unfold Format.targetExponent totalExponent Format.mantissaBits
  omega

theorem le_scaled_mul_finite (hm : 0 < m) (hfits : Fits S m d) (hn : 0 < n) (hone : FromOne S n y) :
    Canonical S (mul S (.finite .positive m d hm) (.finite .positive n y hn)) ∧
      ((m * 2 ^ height S d : Nat) : Int) ≤
        scaled S (mul S (.finite .positive m d hm) (.finite .positive n y hn)) := by
  have hmul : mul S (.finite .positive m d hm) (.finite .positive n y hn) =
      roundWithAccuracy S .positive (m * n) (d + y) .exact := rfl
  have hlarge : 2 ^ S.mantissaBitsWithoutImplicit ≤ m * n :=
    hone.mantissa.trans (Nat.le_mul_of_pos_left n hm)
  have htarget := le_targetExponent_of_le hlarge (d + y)
  obtain ⟨r, hrounds, hcanonical, hvalue⟩ :=
    roundWithAccuracy_rounds .positive .exact htarget rfl
  rw [hmul, hvalue]
  refine ⟨hcanonical, Int.ofNat_le.mpr (hrounds.ge htarget rfl hfits fun _ => ?_)⟩
  have hexponent := hone.exponent
  have hpow : 2 ^ (d - (d + y)).toNat ≤ 2 ^ S.mantissaBitsWithoutImplicit :=
    Nat.pow_le_pow_right (by decide) (by omega)
  exact Nat.mul_le_mul_left m (hpow.trans hone.mantissa)

/-- A number above zero does not get smaller when it is multiplied by a number from one on. -/
theorem le_scaled_mul (hS : S.minExponent ≤ maxExponent S) (hu : Representable S u)
    (hv : Representable S v) (hpos : 0 < scaled S u) (hone : scaled S (one S) ≤ scaled S v) :
    scaled S u ≤ scaled S (repack S (mul S u v)) := by
  have hsign := (scaled_nonneg_iff S u).mp hpos.le
  have hinfinite (h : mul S u v = .infinity .positive) :
      scaled S u ≤ scaled S (repack S (mul S u v)) := by
    rw [h, repack_infinity]
    exact scaled_le_top hu
  cases u with
  | notANumber => cases hpos
  | zero a => cases hpos
  | infinity a =>
    obtain rfl : a = .positive := hsign
    rcases fromOne_cases hS hv hone with rfl | ⟨n, y, hn, rfl, -⟩ <;> exact hinfinite rfl
  | finite a m d hm =>
    obtain rfl : a = .positive := hsign
    rcases fromOne_cases hS hv hone with rfl | ⟨n, y, hn, rfl, hfrom⟩
    · exact hinfinite rfl
    · obtain ⟨hcanonical, hle⟩ := le_scaled_mul_finite hm hu.1 hn hfrom
      exact le_scaled_repack hS hcanonical hu hpos.le hle

end Products

section Quotients

theorem div_finite (S : Format) (hm : 0 < m) (hn : 0 < n) (hx : min (d - y) (S.targetExponent
      (totalExponent m d - totalExponent n y)) = x) :
    div S (.finite .positive m d hm) (.finite .positive n y hn) =
      roundWithAccuracy S .positive (m * 2 ^ (d - y - x).toNat / n) x
        (accuracyOfFraction (m * 2 ^ (d - y - x).toNat % n) n) := by
  subst hx
  rw [← Nat.shiftLeft_eq]
  rfl

/-- The quotient of two mantissas has as many bits as a format wants, or the least exponent. -/
theorem quotient_target (hm : 0 < m) (hn : 0 < n) (hx : min (d - y) (S.targetExponent
      (totalExponent m d - totalExponent n y)) = x) :
    x ≤ S.targetExponent (totalExponent (m * 2 ^ (d - y - x).toNat / n) x) := by
  by_cases hleast : x ≤ S.minExponent
  · exact hleast.trans (by unfold Format.targetExponent; omega)
  · obtain ⟨j, hj⟩ : ∃ j, (d - y - x).toNat = j := ⟨_, rfl⟩
    rw [hj]
    have hbits : n.log2 + 1 + S.mantissaBitsWithoutImplicit ≤ m.log2 + j := by
      unfold Format.targetExponent totalExponent Format.mantissaBits at hx
      omega
    have hlow : 2 ^ (m.log2 + j) ≤ m * 2 ^ j := by
      rw [Nat.pow_add]
      exact Nat.mul_le_mul_right _ (Nat.log2_self_le hm.ne')
    apply le_targetExponent_of_le
    rw [Nat.le_div_iff_mul_le hn]
    calc 2 ^ S.mantissaBitsWithoutImplicit * n
        ≤ 2 ^ S.mantissaBitsWithoutImplicit * 2 ^ (n.log2 + 1) :=
          Nat.mul_le_mul_left _ Nat.lt_log2_self.le
      _ = 2 ^ (n.log2 + 1 + S.mantissaBitsWithoutImplicit) := by
          rw [← Nat.pow_add, Nat.add_comm]
      _ ≤ 2 ^ (m.log2 + j) := Nat.pow_le_pow_right (by decide) hbits
      _ ≤ m * 2 ^ j := hlow

theorem quotient_exponent_le (hfits : Fits S m d) (hm : 0 < m) (hone : FromOne S n y)
    (hx : min (d - y) (S.targetExponent (totalExponent m d - totalExponent n y)) = x) :
    x ≤ d := by
  have hleast := hfits.least
  have hlog : m.log2 < S.mantissaBits := (Nat.log2_lt hm.ne').mpr hfits.lt
  have hlog' := (Nat.le_log2 ((leading_pos S).trans_le hone.mantissa).ne').mpr hone.mantissa
  have hexponent := hone.exponent
  unfold Format.targetExponent totalExponent at hx
  omega

theorem scaled_div_le_finite (hm : 0 < m) (hfits : Fits S m d) (hn : 0 < n)
    (hone : FromOne S n y) :
    Canonical S (div S (.finite .positive m d hm) (.finite .positive n y hn)) ∧
      scaled S (div S (.finite .positive m d hm) (.finite .positive n y hn)) ≤
        ((m * 2 ^ height S d : Nat) : Int) := by
  obtain ⟨x, hx⟩ : ∃ x, min (d - y) (S.targetExponent
      (totalExponent m d - totalExponent n y)) = x := ⟨_, rfl⟩
  have hxd := quotient_exponent_le hfits hm hone hx
  have htarget := quotient_target hm hn hx
  have hexponent := hone.exponent
  have hshift : 2 ^ (d - y - x).toNat ≤ 2 ^ (d - x).toNat * n := by
    refine le_trans ?_ (Nat.mul_le_mul_left _ hone.mantissa)
    rw [← Nat.pow_add]
    exact Nat.pow_le_pow_right (by decide) (by omega)
  rw [div_finite S hm hn hx]
  obtain ⟨X, hX⟩ : ∃ X, m * 2 ^ (d - y - x).toNat = X := ⟨_, rfl⟩
  have hbound : X ≤ m * 2 ^ (d - x).toNat * n := by
    rw [← hX, Nat.mul_assoc]
    exact Nat.mul_le_mul_left m hshift
  rw [hX] at htarget ⊢
  obtain ⟨r, hrounds, hcanonical, hvalue⟩ :=
    roundWithAccuracy_rounds .positive (accuracyOfFraction (X % n) n) htarget rfl
  rw [hvalue]
  refine ⟨hcanonical, Int.ofNat_le.mpr (hrounds.le htarget rfl hfits hxd ?_ fun hinexact => ?_)⟩
  · exact Nat.div_le_of_le_mul (Nat.mul_comm _ _ ▸ hbound)
  · have hremainder : X % n ≠ 0 := fun h => hinexact (if_pos h)
    have hsplit := Nat.div_add_mod' X n
    exact Nat.lt_of_mul_lt_mul_right (a := n) (by omega)

/-- A number that is not negative does not get larger when it is divided by a number from one on. -/
theorem scaled_div_le (hS : S.minExponent ≤ maxExponent S) (hu : Representable S u)
    (hv : Representable S v) (hnonneg : 0 ≤ scaled S u) (hdefined : (div S u v).isNaN = false)
    (hone : scaled S (one S) ≤ scaled S v) : scaled S (repack S (div S u v)) ≤ scaled S u := by
  have hsign := (scaled_nonneg_iff S u).mp hnonneg
  have hzero {a : Sign} (h : div S u v = .zero a) :
      scaled S (repack S (div S u v)) ≤ scaled S u := by
    rw [h, repack_zero]
    exact hnonneg
  cases u with
  | notANumber => cases hdefined
  | infinity a =>
    obtain rfl : a = .positive := hsign
    rcases fromOne_cases hS hv hone with rfl | ⟨n, y, hn, rfl, -⟩
    · cases hdefined
    · have hdiv : div S (.infinity .positive) (.finite .positive n y hn) =
          .infinity .positive := rfl
      rw [hdiv, repack_infinity]
  | zero a =>
    rcases fromOne_cases hS hv hone with rfl | ⟨n, y, hn, rfl, -⟩ <;> exact hzero rfl
  | finite a m d hm =>
    obtain rfl : a = .positive := hsign
    rcases fromOne_cases hS hv hone with rfl | ⟨n, y, hn, rfl, hfrom⟩
    · exact hzero rfl
    · obtain ⟨hcanonical, hle⟩ := scaled_div_le_finite hm hu.1 hn hfrom
      exact scaled_repack_le hS hcanonical hu rfl hle

/-- A finite number can be divided by a number from one on. -/
theorem div_defined (hS : S.minExponent ≤ maxExponent S) (hfinite : u.isFinite = true)
    (hv : Representable S v) (hone : scaled S (one S) ≤ scaled S v) :
    (div S u v).isNaN = false := by
  rcases fromOne_cases hS hv hone with rfl | ⟨n, y, hn, rfl, -⟩
  · cases u with
    | notANumber => cases hfinite
    | infinity a => cases hfinite
    | _ => rfl
  · cases u with
    | notANumber => cases hfinite
    | infinity a => cases hfinite
    | zero a => rfl
    | finite a m d hm => exact isNaN_roundWithAccuracy S _ _ _ _

end Quotients

end Autodiff.Binary
