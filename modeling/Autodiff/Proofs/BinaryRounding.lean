import Mathlib.Tactic.Ring

namespace Autodiff.Binary

open Float.Model (Format UnpackedFloat totalExponent)
open Float.Model.UnpackedFloat

/-- The unit in which a number is given when it is rounded to `p` bits. -/
def unit (p X : Nat) : Nat := 2 ^ (X.log2 + 1 - p)

/-- `R` is one of the neighbours of `X` with `p` bits, and `X` itself if it has no more bits. -/
structure IsRounding (p X R : Nat) : Prop where
  lower : X / unit p X * unit p X ≤ R
  upper : R ≤ (X / unit p X + 1) * unit p X
  exact : unit p X ∣ X → R = X

section Naturals

variable {p X R m k : Nat}

theorem unit_pos (p X : Nat) : 0 < unit p X := Nat.two_pow_pos _

theorem log2_mul_two_pow (hX : 0 < X) (k : Nat) : (X * 2 ^ k).log2 = X.log2 + k := by
  induction k with
  | zero => simp
  | succ k ih =>
    have hne : X * 2 ^ k ≠ 0 := (Nat.mul_pos hX (Nat.two_pow_pos k)).ne'
    rw [Nat.pow_succ, ← Nat.mul_assoc, Nat.mul_comm _ 2, Nat.log2_two_mul hne, ih]
    omega

/-- A number with `p` bits is a multiple of the unit of another number, or it is below the largest
power of two in that number. -/
theorem unit_dvd_or_lt (hm : m < 2 ^ p) : unit p X ∣ m * 2 ^ k ∨ m * 2 ^ k < 2 ^ X.log2 := by
  by_cases hk : X.log2 + 1 - p ≤ k
  · left
    have hpow : 2 ^ (X.log2 + 1 - p) ∣ 2 ^ k := Nat.pow_dvd_pow 2 hk
    exact Nat.dvd_trans hpow (Nat.dvd_mul_left _ m)
  · right
    have hlt : m * 2 ^ k < 2 ^ p * 2 ^ k := Nat.mul_lt_mul_of_pos_right hm (Nat.two_pow_pos k)
    have hle : 2 ^ (p + k) ≤ 2 ^ X.log2 := Nat.pow_le_pow_right (by decide) (by omega)
    rw [Nat.pow_add] at hle
    omega

/-- Rounding does not lead over a number with `p` bits from below. -/
theorem IsRounding.le (h : IsRounding p X R) (hX : 0 < X) (hm : m < 2 ^ p) (hle : X ≤ m * 2 ^ k) :
    R ≤ m * 2 ^ k := by
  have hself : 2 ^ X.log2 ≤ X := Nat.log2_self_le hX.ne'
  obtain ⟨K, hK⟩ : unit p X ∣ m * 2 ^ k := by
    rcases unit_dvd_or_lt hm with h | h
    · exact h
    · omega
  have hpos : 0 < unit p X := unit_pos p X
  rw [hK, Nat.mul_comm] at hle ⊢
  have hquotient : X / unit p X ≤ K := by
    have := Nat.div_le_div_right (c := unit p X) hle
    rwa [Nat.mul_div_cancel _ hpos] at this
  rcases hquotient.eq_or_lt with heq | hlt
  · have hlow : K * unit p X ≤ X := by
      rw [← heq]
      exact Nat.div_mul_le_self X _
    have hXK : X = K * unit p X := by omega
    have hR : R = X := h.exact ⟨K, by rw [Nat.mul_comm]; exact hXK⟩
    omega
  · exact h.upper.trans (Nat.mul_le_mul_right _ hlt)

/-- Rounding does not lead over a number with `p` bits from above. -/
theorem IsRounding.ge (h : IsRounding p X R) (hp : 0 < p) (hX : 0 < X) (hm : m < 2 ^ p)
    (hle : m * 2 ^ k ≤ X) : m * 2 ^ k ≤ R := by
  have hfloor (F : Nat) (hd : unit p X ∣ F) (hF : F ≤ X) : F ≤ R := by
    have hmono : F / unit p X * unit p X ≤ X / unit p X * unit p X :=
      Nat.mul_le_mul_right _ (Nat.div_le_div_right hF)
    rw [Nat.div_mul_cancel hd] at hmono
    exact hmono.trans h.lower
  rcases unit_dvd_or_lt hm with hd | hlt
  · exact hfloor _ hd hle
  · have hd : unit p X ∣ 2 ^ X.log2 := Nat.pow_dvd_pow 2 (by omega)
    exact hlt.le.trans (hfloor _ hd (Nat.log2_self_le hX.ne'))

theorem IsRounding.pos (h : IsRounding p X R) (hp : 0 < p) (hX : 0 < X) : 0 < R := by
  have hle : unit p X ≤ X :=
    (Nat.pow_le_pow_right (by decide) (by omega)).trans (Nat.log2_self_le hX.ne')
  have hquotient : 0 < X / unit p X := Nat.div_pos hle (unit_pos p X)
  exact (Nat.mul_pos hquotient (unit_pos p X)).trans_le h.lower

end Naturals

section Shifts

variable {S : Format} {m k : Nat} {e : Int}

/-- Shifting to the right divides by a power of two and remembers whether a remainder is lost. -/
theorem shiftRight_exact (m k : Nat) : ∃ r s,
    ExtendedMantissa.ofMantissaAndAccuracy m .exact >>> k = ⟨m / 2 ^ k, r, s⟩ ∧
      (2 ^ k ∣ m → r = false ∧ s = false) := by
  induction k with
  | zero => exact ⟨false, false, by rw [Nat.pow_zero, Nat.div_one]; rfl, fun _ => ⟨rfl, rfl⟩⟩
  | succ k ih =>
    obtain ⟨r, s, hshift, hbits⟩ := ih
    have hstep : ExtendedMantissa.ofMantissaAndAccuracy m .exact >>> (k + 1) =
        (ExtendedMantissa.ofMantissaAndAccuracy m .exact >>> k).shiftRightOne := rfl
    refine ⟨m / 2 ^ k % 2 != 0, r || s, ?_, ?_⟩
    · rw [hstep, hshift, Nat.pow_succ, ← Nat.div_div_eq_div_mul]
      rfl
    · rintro ⟨q, hq⟩
      obtain ⟨rfl, rfl⟩ := hbits ⟨2 * q, by rw [hq, Nat.pow_succ, Nat.mul_assoc]⟩
      have hdiv : m / 2 ^ k = 2 * q := by
        rw [hq, Nat.pow_succ, Nat.mul_assoc, Nat.mul_div_cancel_left _ (Nat.two_pow_pos k)]
      simp [hdiv]

theorem roundedMantissa_cases (em : ExtendedMantissa) :
    em.roundedMantissa = em.mantissa ∨ em.roundedMantissa = em.mantissa + 1 := by
  obtain ⟨q, r, s⟩ := em
  have hparity : q % 2 = 0 ∨ q % 2 = 1 := by omega
  cases r <;> cases s <;>
    simp [ExtendedMantissa.roundedMantissa, ExtendedMantissa.accuracy, Accuracy.roundToNearestEven,
      hparity]

/-- The mantissa that is left after shifting to the right and rounding. -/
theorem roundedMantissa_shiftRight (m k : Nat) :
    m / 2 ^ k ≤ (ExtendedMantissa.ofMantissaAndAccuracy m .exact >>> k).roundedMantissa ∧
      (ExtendedMantissa.ofMantissaAndAccuracy m .exact >>> k).roundedMantissa ≤ m / 2 ^ k + 1 ∧
      (2 ^ k ∣ m →
        (ExtendedMantissa.ofMantissaAndAccuracy m .exact >>> k).roundedMantissa = m / 2 ^ k) := by
  obtain ⟨r, s, hshift, hbits⟩ := shiftRight_exact m k
  rw [hshift]
  have hcases : (⟨m / 2 ^ k, r, s⟩ : ExtendedMantissa).roundedMantissa = m / 2 ^ k ∨
      (⟨m / 2 ^ k, r, s⟩ : ExtendedMantissa).roundedMantissa = m / 2 ^ k + 1 :=
    roundedMantissa_cases _
  refine ⟨?_, ?_, fun hd => ?_⟩
  · rcases hcases with h | h <;> omega
  · rcases hcases with h | h <;> omega
  · obtain ⟨rfl, rfl⟩ := hbits hd
    rfl

/-- How far an exponent is above the least one of a format. -/
def height (S : Format) (e : Int) : Nat := (e - S.minExponent).toNat

/-- The mantissa and the exponent that a format has for a number. -/
structure Fits (S : Format) (m : Nat) (e : Int) : Prop where
  lt : m < 2 ^ S.mantissaBits
  least : S.minExponent ≤ e
  leading : 2 ^ S.mantissaBitsWithoutImplicit ≤ m ∨ e = S.minExponent

theorem mantissaBits_eq (S : Format) : S.mantissaBits = 1 + S.mantissaBitsWithoutImplicit := rfl

theorem two_pow_mantissaBits (S : Format) :
    2 ^ S.mantissaBits = 2 * 2 ^ S.mantissaBitsWithoutImplicit := by
  rw [mantissaBits_eq, Nat.pow_add, Nat.pow_one]

theorem height_succ (he : S.minExponent ≤ e) : height S (e + 1) = height S e + 1 := by
  unfold height
  omega

theorem mantissaBits_pos (S : Format) : 0 < S.mantissaBits := by
  rw [mantissaBits_eq]
  omega

/-- A mantissa that fits is not shifted. -/
theorem shiftToTargetExponent_of_lt (hm : m < 2 ^ S.mantissaBits) (he : S.minExponent ≤ e)
    (a : Accuracy) :
    shiftToTargetExponent S m e a = (ExtendedMantissa.ofMantissaAndAccuracy m a, e) := by
  have hlog : m.log2 + 1 ≤ S.mantissaBits := by
    rcases m.eq_zero_or_pos with rfl | hpos
    · exact mantissaBits_pos S
    · exact (Nat.log2_lt hpos.ne').mpr hm
  have hshift : (S.targetExponent (totalExponent m e) - e).toNat = 0 := by
    unfold Format.targetExponent totalExponent
    omega
  rw [shiftToTargetExponent, shiftToExponent, hshift]
  exact Prod.ext rfl (Int.add_zero e)

/-- A rounded mantissa with one bit too many has lost nothing when it is shifted again. -/
theorem shiftToTargetExponent_carry (hm : m ≤ 2 ^ S.mantissaBits) (hpos : 0 < m)
    (he : S.minExponent ≤ e)
    (hlead : 2 ^ S.mantissaBitsWithoutImplicit ≤ m ∨ e = S.minExponent) :
    ∃ em e', shiftToTargetExponent S m e .exact = (em, e') ∧ Fits S em.mantissa e' ∧
      em.mantissa * 2 ^ height S e' = m * 2 ^ height S e := by
  rcases hm.lt_or_eq with hlt | rfl
  · exact ⟨_, _, shiftToTargetExponent_of_lt hlt he .exact, ⟨hlt, he, hlead⟩, rfl⟩
  · have htarget : S.targetExponent (totalExponent (2 ^ S.mantissaBits) e) = e + 1 := by
      unfold Format.targetExponent totalExponent
      rw [Nat.log2_two_pow]
      omega
    have hhalf : 2 ^ S.mantissaBits / 2 = 2 ^ S.mantissaBitsWithoutImplicit := by
      rw [two_pow_mantissaBits]
      omega
    have hshift : shiftToTargetExponent S (2 ^ S.mantissaBits) e .exact =
        (ExtendedMantissa.shiftRightOne ⟨2 ^ S.mantissaBits, false, false⟩, e + 1) := by
      rw [shiftToTargetExponent, shiftToExponent, htarget, show (e + 1 - e).toNat = 1 by omega]
      rfl
    have hmantissa : (ExtendedMantissa.shiftRightOne ⟨2 ^ S.mantissaBits, false, false⟩).mantissa =
        2 ^ S.mantissaBitsWithoutImplicit := hhalf
    have hpow : 0 < 2 ^ S.mantissaBitsWithoutImplicit := Nat.two_pow_pos _
    refine ⟨_, _, hshift, ⟨?_, by omega, .inl hmantissa.ge⟩, ?_⟩
    · rw [hmantissa, two_pow_mantissaBits]
      omega
    · rw [hmantissa, two_pow_mantissaBits, height_succ he, Nat.pow_succ]
      ring

/-- The exponent of a rounded number is above the least one by as many bits as rounding drops. -/
theorem height_targetExponent (hm : 0 < m) (he : S.minExponent ≤ e) :
    height S (S.targetExponent (totalExponent m e)) =
      (m * 2 ^ height S e).log2 + 1 - S.mantissaBits := by
  rw [log2_mul_two_pow hm]
  unfold height Format.targetExponent totalExponent
  omega

theorem quotient_lt {t : Int} (ht : S.targetExponent (totalExponent m e) = t)
    (hk : (t - e).toNat = k) : m / 2 ^ k < 2 ^ S.mantissaBits := by
  have hlog : m < 2 ^ (m.log2 + 1) := Nat.lt_log2_self
  have hle : m.log2 + 1 ≤ S.mantissaBits + k := by
    unfold Format.targetExponent totalExponent at ht
    omega
  rw [Nat.div_lt_iff_lt_mul (Nat.two_pow_pos k), ← Nat.pow_add]
  exact hlog.trans_le (Nat.pow_le_pow_right (by decide) hle)

/-- Above the least exponent no bit of the mantissa is left empty. -/
theorem quotient_leading {t : Int} (hm : 0 < m) (he : e ≤ t)
    (ht : S.targetExponent (totalExponent m e) = t) (hk : (t - e).toNat = k) :
    2 ^ S.mantissaBitsWithoutImplicit ≤ m / 2 ^ k ∨ t = S.minExponent := by
  by_cases hmin : t = S.minExponent
  · exact .inr hmin
  · left
    have hself : 2 ^ m.log2 ≤ m := Nat.log2_self_le hm.ne'
    have hle : S.mantissaBitsWithoutImplicit + k ≤ m.log2 := by
      unfold Format.targetExponent totalExponent at ht
      rw [mantissaBits_eq] at ht
      omega
    rw [Nat.le_div_iff_mul_le (Nat.two_pow_pos k), ← Nat.pow_add]
    exact (Nat.pow_le_pow_right (by decide) hle).trans hself

/-- The first shift drops the bits that a format has no room for, which rounds the number. -/
theorem shiftToTargetExponent_rounds (hm : 0 < m) (he : S.minExponent ≤ e)
    (htarget : e ≤ S.targetExponent (totalExponent m e)) :
    ∃ em t, shiftToTargetExponent S m e .exact = (em, t) ∧ S.minExponent ≤ t ∧
      em.roundedMantissa ≤ 2 ^ S.mantissaBits ∧
      (2 ^ S.mantissaBitsWithoutImplicit ≤ em.roundedMantissa ∨ t = S.minExponent) ∧
      IsRounding S.mantissaBits (m * 2 ^ height S e) (em.roundedMantissa * 2 ^ height S t) := by
  obtain ⟨t, ht⟩ : ∃ t, S.targetExponent (totalExponent m e) = t := ⟨_, rfl⟩
  obtain ⟨k, hk⟩ : ∃ k, (t - e).toNat = k := ⟨_, rfl⟩
  rw [ht] at htarget
  have hshift : shiftToTargetExponent S m e .exact =
      (ExtendedMantissa.ofMantissaAndAccuracy m .exact >>> k, t) := by
    rw [shiftToTargetExponent, shiftToExponent, ht, hk]
    refine Prod.ext rfl ?_
    change e + (k : Int) = t
    omega
  obtain ⟨hlow, hhigh, hexact⟩ := roundedMantissa_shiftRight m k
  have hbound := quotient_lt ht hk
  have hlead := quotient_leading hm htarget ht hk
  have hheight : height S t = height S e + k := by
    unfold height
    omega
  have hunit : unit S.mantissaBits (m * 2 ^ height S e) = 2 ^ k * 2 ^ height S e := by
    rw [unit, ← height_targetExponent hm he, ht, hheight, Nat.pow_add, Nat.mul_comm]
  have hvalue (r : Nat) : r * 2 ^ height S t = r * unit S.mantissaBits (m * 2 ^ height S e) := by
    rw [hunit, hheight, Nat.pow_add, Nat.mul_comm (2 ^ k)]
  have hquotient : m * 2 ^ height S e / unit S.mantissaBits (m * 2 ^ height S e) = m / 2 ^ k := by
    rw [hunit, Nat.mul_div_mul_right _ _ (Nat.two_pow_pos _)]
  refine ⟨_, t, hshift, by omega, by omega, hlead.imp_left fun h => h.trans hlow, ?_⟩
  rw [hvalue]
  constructor
  · rw [hquotient]
    exact Nat.mul_le_mul_right _ hlow
  · rw [hquotient]
    exact Nat.mul_le_mul_right _ hhigh
  · intro hd
    have hk : 2 ^ k ∣ m := by
      rw [hunit] at hd
      exact Nat.dvd_of_mul_dvd_mul_right (Nat.two_pow_pos _) hd
    rw [hexact hk, ← hquotient]
    exact Nat.div_mul_cancel hd

theorem roundWithAccuracy_exact (s : Sign) (hm : 0 < m) (he : S.minExponent ≤ e)
    (htarget : e ≤ S.targetExponent (totalExponent m e)) :
    ∃ m' e' h, roundWithAccuracy S s m e .exact = .finite s m' e' h ∧ Fits S m' e' ∧
      IsRounding S.mantissaBits (m * 2 ^ height S e) (m' * 2 ^ height S e') := by
  obtain ⟨em, t, hfirst, hleast, hbound, hlead, hround⟩ :=
    shiftToTargetExponent_rounds hm he htarget
  have hX : 0 < m * 2 ^ height S e := Nat.mul_pos hm (Nat.two_pow_pos _)
  have hpos : 0 < em.roundedMantissa :=
    Nat.pos_of_mul_pos_right (hround.pos (mantissaBits_pos S) hX)
  obtain ⟨em', e', hsecond, hfits, hsame⟩ := shiftToTargetExponent_carry hbound hpos hleast hlead
  rw [← hsame] at hround
  have hpos' : 0 < em'.mantissa := Nat.pos_of_mul_pos_right (hround.pos (mantissaBits_pos S) hX)
  refine ⟨em'.mantissa, e', hpos', ?_, hfits, hround⟩
  unfold roundWithAccuracy
  rw [hfirst]
  dsimp only
  rw [hsecond]
  exact dif_neg hpos'.ne'

/-- Rounding a number whose exponent a format has gives its neighbour with the same sign. -/
theorem round_exact (s : Sign) (hm : 0 < m) (he : S.minExponent ≤ e) :
    ∃ m' e' h, UnpackedFloat.round S s m e = .finite s m' e' h ∧ Fits S m' e' ∧
      IsRounding S.mantissaBits (m * 2 ^ height S e) (m' * 2 ^ height S e') := by
  obtain ⟨t, ht⟩ : ∃ t, S.targetExponent (totalExponent m e) = t := ⟨_, rfl⟩
  obtain ⟨k, hk⟩ : ∃ k, (e - t).toNat = k := ⟨_, rfl⟩
  have hdecrease : decreaseExponent m e t = (m * 2 ^ k, e - k) := by
    rw [decreaseExponent, hk, Nat.shiftLeft_eq]
  have hleast : S.minExponent ≤ t := by
    unfold Format.targetExponent at ht
    omega
  have htotal : totalExponent (m * 2 ^ k) (e - k) = totalExponent m e := by
    unfold totalExponent
    rw [log2_mul_two_pow hm]
    omega
  have hpos : 0 < m * 2 ^ k := Nat.mul_pos hm (Nat.two_pow_pos k)
  obtain ⟨m', e', h, heq, hfits, hround⟩ :=
    roundWithAccuracy_exact s hpos (e := e - k) (S := S) (by omega) (by rw [htotal, ht]; omega)
  have hvalue : m * 2 ^ k * 2 ^ height S (e - k) = m * 2 ^ height S e := by
    rw [Nat.mul_assoc, ← Nat.pow_add]
    congr 2
    unfold height
    omega
  have hsame : UnpackedFloat.round S s m e = roundWithAccuracy S s (m * 2 ^ k) (e - k) .exact := by
    simp only [UnpackedFloat.round, ht, hdecrease]
  rw [hvalue] at hround
  exact ⟨m', e', h, hsame.trans heq, hfits, hround⟩

end Shifts

end Autodiff.Binary
