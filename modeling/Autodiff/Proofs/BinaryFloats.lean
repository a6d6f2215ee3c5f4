import Mathlib
import Autodiff.Proofs.BinaryRounding

-- No smaller part of the library brings the lemmas about packed and unpacked floats.

namespace Autodiff.Binary

open Float.Model (Format UnpackedFloat)
open Float.Model.UnpackedFloat

/-- The largest exponent of a finite number. -/
def maxExponent (S : Format) : Int := S.exponentBias - S.mantissaBitsWithoutImplicit

/-- A bound of all finite numbers, counted in the smallest positive one. -/
def top (S : Format) : Nat := 2 ^ (S.mantissaBits + height S (maxExponent S))

/-- The form in which operations leave their results. The exponent may be too large. -/
def Canonical (S : Format) : UnpackedFloat → Prop
  | .finite _ m e _ => Fits S m e
  | _ => True

/-- The numbers of a format. -/
def Representable (S : Format) : UnpackedFloat → Prop
  | .finite _ m e _ => Fits S m e ∧ e ≤ maxExponent S
  | _ => True

/-- The value of a number, counted in the smallest positive one. An undefined number counts as
zero. -/
def scaled (S : Format) : UnpackedFloat → Int
  | .infinity s => s.apply (top S)
  | .finite s m e _ => s.apply ((m * 2 ^ height S e : Nat) : Int)
  | _ => 0

/-- A number as it is after it has been stored. -/
def repack (S : Format) (u : UnpackedFloat) : UnpackedFloat := unpack S (pack S u)

variable {S : Format} {u v : UnpackedFloat} {m n : Nat} {d e : Int}

section Order

theorem mul_two_pow_height_pos (hm : 0 < m) : 0 < m * 2 ^ height S e :=
  Nat.mul_pos hm (Nat.two_pow_pos _)

theorem Fits.lt_of_exponent_lt (hm : Fits S m d) (hn : Fits S n e) (hlt : d < e) :
    m * 2 ^ height S d < n * 2 ^ height S e := by
  have hleading : 2 ^ S.mantissaBitsWithoutImplicit ≤ n := by
    rcases hn.leading with h | h
    · exact h
    · have := hm.least
      omega
  have hheight : height S d + 1 ≤ height S e := by
    have := hm.least
    unfold height
    omega
  have hpow : 2 ^ (height S d + 1) ≤ 2 ^ height S e := Nat.pow_le_pow_right (by decide) hheight
  calc m * 2 ^ height S d < 2 ^ S.mantissaBits * 2 ^ height S d :=
        Nat.mul_lt_mul_of_pos_right hm.lt (Nat.two_pow_pos _)
    _ = 2 ^ S.mantissaBitsWithoutImplicit * 2 ^ (height S d + 1) := by
        rw [two_pow_mantissaBits, Nat.pow_succ]
        ring
    _ ≤ n * 2 ^ height S e := Nat.mul_le_mul hleading hpow

theorem Fits.lt_top (h : Fits S m e) (he : e ≤ maxExponent S) : m * 2 ^ height S e < top S := by
  have hheight : height S e ≤ height S (maxExponent S) := by
    unfold height
    omega
  rw [top, Nat.pow_add]
  exact Nat.mul_lt_mul_of_lt_of_le h.lt (Nat.pow_le_pow_right (by decide) hheight)
    (Nat.two_pow_pos _)

/-- A number whose exponent is too large is not below the bound. -/
theorem Fits.top_le (h : Fits S m e) (he : maxExponent S < e)
    (hleast : S.minExponent ≤ maxExponent S) : top S ≤ m * 2 ^ height S e := by
  have hleading : 2 ^ S.mantissaBitsWithoutImplicit ≤ m := by
    rcases h.leading with h | h
    · exact h
    · omega
  have hheight : height S (maxExponent S) + 1 ≤ height S e := by
    unfold height
    omega
  have hpow : 2 ^ (height S (maxExponent S) + 1) ≤ 2 ^ height S e :=
    Nat.pow_le_pow_right (by decide) hheight
  calc top S = 2 ^ S.mantissaBitsWithoutImplicit * 2 ^ (height S (maxExponent S) + 1) := by
        rw [top, Nat.pow_add, two_pow_mantissaBits, Nat.pow_succ]
        ring
    _ ≤ m * 2 ^ height S e := Nat.mul_le_mul hleading hpow

theorem compare_congr {α β : Type} [LinearOrder α] [LinearOrder β] {a b : α} {x y : β}
    (hlt : a < b ↔ x < y) (hgt : b < a ↔ y < x) : compare a b = compare x y := by
  rcases lt_trichotomy a b with h | rfl | h
  · rw [compare_lt_iff_lt.mpr h, compare_lt_iff_lt.mpr (hlt.mp h)]
  · have hle : x ≤ y := not_lt.mp fun h => lt_irrefl a (hgt.mpr h)
    have hge : y ≤ x := not_lt.mp fun h => lt_irrefl a (hlt.mpr h)
    rw [compare_eq_iff_eq.mpr rfl, compare_eq_iff_eq.mpr (hle.antisymm hge)]
  · rw [compare_gt_iff_gt.mpr h, compare_gt_iff_gt.mpr (hgt.mp h)]

/-- Finite numbers are compared by their exponents first. -/
theorem Fits.compare_eq (hm : Fits S m d) (hn : Fits S n e) :
    (compare d e).then (compare m n) =
      compare ((m * 2 ^ height S d : Nat) : Int) ((n * 2 ^ height S e : Nat) : Int) := by
  rcases lt_trichotomy d e with hlt | rfl | hlt
  · have := hm.lt_of_exponent_lt hn hlt
    rw [compare_lt_iff_lt.mpr hlt, compare_lt_iff_lt.mpr (Int.ofNat_lt.mpr this)]
    rfl
  · have hpow : 0 < 2 ^ height S d := Nat.two_pow_pos _
    rw [compare_eq_iff_eq.mpr rfl]
    exact compare_congr (by rw [Int.ofNat_lt, Nat.mul_lt_mul_right hpow])
      (by rw [Int.ofNat_lt, Nat.mul_lt_mul_right hpow])
  · have := hn.lt_of_exponent_lt hm hlt
    rw [compare_gt_iff_gt.mpr hlt, compare_gt_iff_gt.mpr (Int.ofNat_lt.mpr this)]
    rfl

theorem compare_neg (a b : Int) : compare (-a) (-b) = (compare a b).swap := by
  have hswap : compare a b = (compare b a).swap := Std.OrientedCmp.eq_swap
  rw [hswap, Ordering.swap_swap]
  exact compare_congr Int.neg_lt_neg_iff Int.neg_lt_neg_iff

theorem top_pos (S : Format) : 0 < top S := Nat.two_pow_pos _

/-- No finite number is as large as an infinity. -/
theorem scaled_lt_top (hu : Representable S u) (hfinite : u.isFinite = true) :
    -(top S : Int) < scaled S u ∧ scaled S u < top S := by
  have htop := top_pos S
  cases u with
  | notANumber => cases hfinite
  | infinity s => cases hfinite
  | zero s =>
    change -(top S : Int) < 0 ∧ (0 : Int) < top S
    omega
  | finite s m e hm =>
    have hlt := hu.1.lt_top hu.2
    cases s <;> simp only [scaled, Sign.apply] <;> omega

theorem compare_infinity (hu : Representable S u) (hfinite : u.isFinite = true) (s : Sign) :
    (infinity s).compare u = some (compare (scaled S (.infinity s)) (scaled S u)) ∧
      u.compare (.infinity s) = some (compare (scaled S u) (scaled S (.infinity s))) := by
  obtain ⟨hlow, hhigh⟩ := scaled_lt_top hu hfinite
  cases s with
  | negative =>
    have hinfinity : scaled S (.infinity .negative) < scaled S u := hlow
    rw [compare_lt_iff_lt.mpr hinfinity, compare_gt_iff_gt.mpr hinfinity]
    cases u with
    | notANumber => cases hfinite
    | infinity t => cases hfinite
    | zero t => exact ⟨rfl, rfl⟩
    | finite t m e hm => exact ⟨rfl, rfl⟩
  | positive =>
    have hinfinity : scaled S u < scaled S (.infinity .positive) := hhigh
    rw [compare_lt_iff_lt.mpr hinfinity, compare_gt_iff_gt.mpr hinfinity]
    cases u with
    | notANumber => cases hfinite
    | infinity t => cases hfinite
    | zero t => exact ⟨rfl, rfl⟩
    | finite t m e hm => exact ⟨rfl, rfl⟩

/-- Numbers are compared by their values. -/
theorem compare_eq (hu : Representable S u) (hv : Representable S v) (hun : u.isNaN = false)
    (hvn : v.isNaN = false) : u.compare v = some (compare (scaled S u) (scaled S v)) := by
  have htop := top_pos S
  have hlt {a b : Int} (h : a < b) : some Ordering.lt = some (compare a b) :=
    congrArg some (compare_lt_iff_lt.mpr h).symm
  have hgt {a b : Int} (h : b < a) : some Ordering.gt = some (compare a b) :=
    congrArg some (compare_gt_iff_gt.mpr h).symm
  have heq (a : Int) : some Ordering.eq = some (compare a a) :=
    congrArg some (compare_eq_iff_eq.mpr rfl).symm
  cases u with
  | notANumber => cases hun
  | infinity s =>
    cases v with
    | notANumber => cases hvn
    | infinity t =>
      cases s <;> cases t
      · exact heq _
      · exact hlt (by simp only [scaled, Sign.apply]; omega)
      · exact hgt (by simp only [scaled, Sign.apply]; omega)
      · exact heq _
    | zero t => exact (compare_infinity hv rfl s).1
    | finite t n e hn => exact (compare_infinity hv rfl s).1
  | zero s =>
    cases v with
    | notANumber => cases hvn
    | infinity t => exact (compare_infinity hu rfl t).2
    | zero t => exact heq _
    | finite t n e hn =>
      have hpos := mul_two_pow_height_pos (S := S) (e := e) hn
      cases t
      · exact hgt (by simp only [scaled, Sign.apply]; omega)
      · exact hlt (by simp only [scaled, Sign.apply]; omega)
  | finite s m d hm =>
    have hpos := mul_two_pow_height_pos (S := S) (e := d) hm
    cases v with
    | notANumber => cases hvn
    | infinity t => exact (compare_infinity hu rfl t).2
    | zero t =>
      cases s
      · exact hlt (by simp only [scaled, Sign.apply]; omega)
      · exact hgt (by simp only [scaled, Sign.apply]; omega)
    | finite t n e hn =>
      have hpos' := mul_two_pow_height_pos (S := S) (e := e) hn
      have hfits := hu.1.compare_eq hv.1
      cases s <;> cases t
      · simp only [UnpackedFloat.compare, scaled, Sign.apply, compare_neg, hfits]
      · exact hlt (by simp only [scaled, Sign.apply]; omega)
      · exact hgt (by simp only [scaled, Sign.apply]; omega)
      · simp only [UnpackedFloat.compare, scaled, Sign.apply, hfits]

theorem compare_of_isNaN (h : u.isNaN = true ∨ v.isNaN = true) : u.compare v = none := by
  rcases h with h | h
  · obtain rfl := isNaN_iff.mp h
    rfl
  · obtain rfl := isNaN_iff.mp h
    cases u <;> rfl

theorem compare_eq_some_iff (hu : Representable S u) (hv : Representable S v) {o : Ordering} :
    u.compare v = some o ↔
      u.isNaN = false ∧ v.isNaN = false ∧ compare (scaled S u) (scaled S v) = o := by
  by_cases hnan : u.isNaN = true ∨ v.isNaN = true
  · rw [compare_of_isNaN hnan]
    refine iff_of_false nofun fun ⟨hun, hvn, _⟩ => ?_
    rw [hun, hvn] at hnan
    exact hnan.elim Bool.false_ne_true Bool.false_ne_true
  · have hun := Bool.eq_false_of_not_eq_true (not_or.mp hnan).1
    have hvn := Bool.eq_false_of_not_eq_true (not_or.mp hnan).2
    rw [compare_eq hu hv hun hvn, Option.some_inj]
    exact ⟨fun h => ⟨hun, hvn, h⟩, fun h => h.2.2⟩

theorem lt_iff (hu : Representable S u) (hv : Representable S v) :
    u.lt v = true ↔ u.isNaN = false ∧ v.isNaN = false ∧ scaled S u < scaled S v := by
  rw [UnpackedFloat.lt, beq_iff_eq, compare_eq_some_iff hu hv, compare_lt_iff_lt]

theorem le_iff (hu : Representable S u) (hv : Representable S v) :
    u.le v = true ↔ u.isNaN = false ∧ v.isNaN = false ∧ scaled S u ≤ scaled S v := by
  rw [UnpackedFloat.le, Option.any_eq_true]
  constructor
  · rintro ⟨o, ho, hle⟩
    obtain ⟨hun, hvn, rfl⟩ := (compare_eq_some_iff hu hv).mp ho
    exact ⟨hun, hvn, Int.isLE_compare.mp hle⟩
  · rintro ⟨hun, hvn, hle⟩
    exact ⟨_, compare_eq hu hv hun hvn, Int.isLE_compare.mpr hle⟩

end Order

section Storage

theorem minExponent_eq (S : Format) :
    S.minExponent = 1 - S.exponentBias - S.mantissaBitsWithoutImplicit := by
  have hpow : 1 ≤ 2 ^ (S.exponentBits - 1) := Nat.one_le_two_pow
  unfold Format.minExponent Format.exponentBias Format.mantissaBits
  push_cast [hpow]
  omega

theorem two_pow_exponentBits (S : Format) : 2 ^ S.exponentBits = 2 * S.exponentBias + 2 := by
  have hpow : 1 ≤ 2 ^ (S.exponentBits - 1) := Nat.one_le_two_pow
  have hbits : S.exponentBits = S.exponentBits - 1 + 1 := by
    have := S.he
    omega
  rw [hbits, Nat.pow_succ]
  unfold Format.exponentBias
  omega

theorem toNat_one_append {w : Nat} (y : BitVec w) : (1#1 ++ y).toNat = 2 ^ w + y.toNat := by
  rw [BitVec.toNat_append, ← Nat.shiftLeft_add_eq_or_of_lt y.isLt]
  simp [Nat.shiftLeft_eq]

/-- What is stored with a sign and is not undefined is read with this sign. -/
theorem unpack_packComponents_cases (s : Sign) {x : BitVec S.exponentBits}
    {y : BitVec S.mantissaBitsWithoutImplicit} (h : x = -1#_ → y = 0#_) :
    unpack S (packComponents S s x y) = .infinity s ∨
      unpack S (packComponents S s x y) = .zero s ∨
      ∃ m e hm, unpack S (packComponents S s x y) = .finite s m e hm := by
  unfold unpack
  simp only [unpackMantissa_packComponents, unpackExponent_packComponents,
    unpackSign_packComponents, Sign.ofBitVec_toBitVec]
  split
  next hx => exact .inl (if_pos (h hx))
  next =>
    split
    next =>
      split
      next => exact .inr (.inl rfl)
      next hy =>
        have hpos : 0 < y.toNat := Nat.pos_of_ne_zero fun h => hy (BitVec.eq_of_toNat_eq h)
        exact .inr (.inr ⟨y.toNat, _, hpos, rfl⟩)
    next =>
      have hpos : 0 < (1#1 ++ y).toNat := by
        rw [toNat_one_append]
        have := Nat.two_pow_pos S.mantissaBitsWithoutImplicit
        omega
      exact .inr (.inr ⟨(1#1 ++ y).toNat, _, hpos, rfl⟩)

@[simp]
theorem repack_infinity (S : Format) (s : Sign) : repack S (.infinity s) = .infinity s := by
  rw [repack, pack, packedInfinity, unpack]
  simp

@[simp]
theorem repack_zero (S : Format) (s : Sign) : repack S (.zero s) = .zero s := unpack_packedZero

@[simp]
theorem repack_notANumber (S : Format) : repack S .notANumber = .notANumber := unpack_packedNaN

/-- Storing keeps the sign of a finite number. -/
theorem repack_finite_cases (S : Format) (s : Sign) (hm : 0 < m) :
    repack S (.finite s m e hm) = .infinity s ∨ repack S (.finite s m e hm) = .zero s ∨
      ∃ m' e' h, repack S (.finite s m e hm) = .finite s m' e' h := by
  rw [repack, pack]
  split
  next => exact unpack_packComponents_cases s fun _ => rfl
  next hsmall =>
    split
    next =>
      refine unpack_packComponents_cases s fun h => ?_
      have hvalue := congrArg BitVec.toNat h
      rw [BitVec.neg_one_eq_allOnes, BitVec.toNat_allOnes, BitVec.toNat_ofNat,
        Nat.mod_eq_of_lt (by omega)] at hvalue
      omega
    next => exact unpack_packComponents_cases s fun h => by simp [S.he.ne'] at h

/-- What is read is a number of the format. -/
theorem representable_unpack (hS : 1 < S.exponentBits) (b : BitVec S.numBits) :
    Representable S (unpack S b) := by
  have hbits := two_pow_exponentBits S
  have hbias : 4 ≤ 2 ^ S.exponentBits := Nat.pow_le_pow_right (n := 2) (by decide) hS
  have hleast := minExponent_eq S
  have hmantissa : (unpackMantissa b).toNat < 2 ^ S.mantissaBitsWithoutImplicit :=
    (unpackMantissa b).isLt
  have hexponent : (unpackExponent b).toNat < 2 ^ S.exponentBits := (unpackExponent b).isLt
  have htwo := two_pow_mantissaBits S
  unfold unpack
  dsimp only
  split
  next => split <;> trivial
  next hspecial =>
    split
    next hzero =>
      split
      next => trivial
      next =>
        have he : (unpackExponent b).toNat = 0 := congrArg BitVec.toNat hzero
        refine ⟨⟨by omega, ?_, .inr ?_⟩, ?_⟩
        · omega
        · omega
        · unfold maxExponent
          omega
    next hnonzero =>
      have he : 0 < (unpackExponent b).toNat :=
        Nat.pos_of_ne_zero fun h => hnonzero (BitVec.eq_of_toNat_eq h)
      have hlt : (unpackExponent b).toNat ≠ 2 ^ S.exponentBits - 1 := by
        intro h
        apply hspecial
        apply BitVec.eq_of_toNat_eq
        rw [BitVec.neg_one_eq_allOnes, BitVec.toNat_allOnes, h]
      have happend := toNat_one_append (unpackMantissa b)
      refine ⟨⟨by omega, by omega, .inl (by omega)⟩, ?_⟩
      unfold maxExponent
      omega

/-- A number with a leading bit is stored without it. -/
theorem unpack_normal (s : Sign) {x : BitVec S.exponentBits}
    {y : BitVec S.mantissaBitsWithoutImplicit} (hpos : 0 < x.toNat)
    (hlt : x.toNat + 1 < 2 ^ S.exponentBits) :
    unpack S (packComponents S s x y) = .finite s (2 ^ S.mantissaBitsWithoutImplicit + y.toNat)
      (x.toNat - (S.exponentBias + S.mantissaBitsWithoutImplicit)) (by positivity) := by
  have hspecial : x ≠ -1#_ := by
    rintro rfl
    rw [BitVec.neg_one_eq_allOnes, BitVec.toNat_allOnes] at hlt
    omega
  have hzero : x ≠ 0#_ := by
    rintro rfl
    exact absurd hpos (lt_irrefl 0)
  simp only [unpack, unpackMantissa_packComponents, unpackExponent_packComponents,
    unpackSign_packComponents, Sign.ofBitVec_toBitVec, hspecial, hzero, if_false, toNat_one_append]

theorem unpack_subnormal (s : Sign) {y : BitVec S.mantissaBitsWithoutImplicit} (hy : 0 < y.toNat) :
    unpack S (packComponents S s 0#_ y) = .finite s y.toNat S.minExponent hy := by
  have hspecial : 0#S.exponentBits ≠ -1#_ := by simp [S.he.ne']
  have hnonzero : y ≠ 0#_ := by
    rintro rfl
    exact absurd hy (lt_irrefl 0)
  have hleast := minExponent_eq S
  simp only [unpack, unpackMantissa_packComponents, unpackExponent_packComponents,
    unpackSign_packComponents, Sign.ofBitVec_toBitVec, hspecial, hnonzero, if_false, if_true,
    dite_false, finite.injEq, true_and, BitVec.toNat_zero]
  omega

/-- Storing changes no number of the format. -/
theorem repack_of_representable (h : Representable S u) : repack S u = u := by
  cases u with
  | notANumber => exact repack_notANumber S
  | infinity s => exact repack_infinity S s
  | zero s => exact repack_zero S s
  | finite s m e hm =>
    obtain ⟨⟨hlt, hleast, hleading⟩, hmax⟩ := h
    have hbits := two_pow_exponentBits S
    have hmin := minExponent_eq S
    have htwo := two_pow_mantissaBits S
    unfold maxExponent at hmax
    obtain ⟨b, hb⟩ : ∃ b, (e + S.exponentBias + S.mantissaBitsWithoutImplicit).toNat = b :=
      ⟨_, rfl⟩
    have hsmall : ¬2 ^ S.exponentBits ≤ b + 1 := by omega
    have hlog : m.log2 < S.mantissaBits := (Nat.log2_lt hm.ne').mpr hlt
    rw [repack, pack]
    simp only [hb]
    rw [if_neg hsmall]
    split
    next hnormal =>
      have hx : (BitVec.ofNat S.exponentBits b).toNat = b := by
        rw [BitVec.toNat_ofNat, Nat.mod_eq_of_lt (by omega)]
      have hleading : 2 ^ S.mantissaBitsWithoutImplicit ≤ m := by
        rw [← Nat.le_log2 hm.ne']
        unfold Format.mantissaBits at hnormal
        omega
      have hy : (BitVec.ofNat S.mantissaBitsWithoutImplicit m).toNat =
          m - 2 ^ S.mantissaBitsWithoutImplicit := by
        rw [BitVec.toNat_ofNat, Nat.mod_eq_sub_mod hleading, Nat.mod_eq_of_lt (by omega)]
      rw [unpack_normal s (by omega) (by omega), finite.injEq]
      exact ⟨rfl, by omega, by omega⟩
    next hsubnormal =>
      have hlow : m < 2 ^ S.mantissaBitsWithoutImplicit := by
        rw [← Nat.log2_lt hm.ne']
        unfold Format.mantissaBits at hlog hsubnormal
        omega
      have hy : (BitVec.ofNat S.mantissaBitsWithoutImplicit m).toNat = m := by
        rw [BitVec.toNat_ofNat, Nat.mod_eq_of_lt hlow]
      rw [unpack_subnormal s (by omega), finite.injEq]
      exact ⟨rfl, hy, by omega⟩

/-- Storing turns what is too large into an infinity. -/
theorem repack_overflow (s : Sign) (hm : 0 < m) (h : maxExponent S < e) :
    repack S (.finite s m e hm) = .infinity s := by
  have hbits := two_pow_exponentBits S
  have hlarge :
      2 ^ S.exponentBits ≤ (e + S.exponentBias + S.mantissaBitsWithoutImplicit).toNat + 1 := by
    unfold maxExponent at h
    omega
  rw [repack, pack]
  rw [if_pos hlarge]
  exact repack_infinity S s

/-- Storing keeps the result of an operation, or turns it into an infinity. -/
theorem repack_cases (hS : S.minExponent ≤ maxExponent S) (hv : Canonical S v) :
    Representable S v ∧ repack S v = v ∨
      ∃ s, repack S v = .infinity s ∧ (top S : Int) ≤ s.apply (scaled S v) := by
  cases v with
  | notANumber => exact .inl ⟨trivial, repack_notANumber S⟩
  | infinity t => exact .inl ⟨trivial, repack_infinity S t⟩
  | zero t => exact .inl ⟨trivial, repack_zero S t⟩
  | finite t n e hn =>
    by_cases he : e ≤ maxExponent S
    · have hrep : Representable S (.finite t n e hn) := ⟨hv, he⟩
      exact .inl ⟨hrep, repack_of_representable hrep⟩
    · have hlarge : (top S : Int) ≤ (n * 2 ^ height S e : Nat) :=
        Int.ofNat_le.mpr (Fits.top_le hv (not_le.mp he) hS)
      refine .inr ⟨t, repack_overflow t hn (not_le.mp he), ?_⟩
      cases t with
      | negative => exact hlarge.trans (Int.neg_neg _).ge
      | positive => exact hlarge

end Storage

end Autodiff.Binary
