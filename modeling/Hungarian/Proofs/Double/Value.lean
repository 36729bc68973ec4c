import Hungarian.Proofs.Double.Order
import Hungarian.Proofs.Double.Rounding

/-!
# The values of finite numbers

A finite number is a rational number, and the operations on finite numbers give the rounded result
of the operation on their values: nearly the exact one, and exactly that one where it has 53 bits.
-/

namespace Hungarian.Double

open Float.Model (Format UnpackedFloat)
open Float.Model.UnpackedFloat

variable {x y : Float} {q : ℚ}

def valueOf : UnpackedFloat → ℚ
  | .finite sign mantissa exponent _ => sign.apply mantissa * 2 ^ exponent
  | _ => 0

def value (x : Float) : ℚ := valueOf (kind x)

@[simp]
theorem valueOf_zero (sign : Sign) : valueOf (.zero sign) = 0 := rfl

def IsRepresentable (q : ℚ) : Prop :=
  ∃ (count : ℤ) (exponent : ℤ), q = count * 2 ^ exponent ∧ |count| < 2 ^ 53 ∧
    -1074 ≤ exponent ∧ exponent ≤ 970

structure Rounds (q : ℚ) (unpacked : UnpackedFloat) : Prop where
  wellFormed : WellFormed unpacked
  isFinite : unpacked.isFinite = true
  near : |valueOf unpacked - q| ≤ |q| / 2 ^ 52 + 2 ^ (-1074 : ℤ)
  exact : IsRepresentable q → valueOf unpacked = q
  nonneg : 0 ≤ q → 0 ≤ valueOf unpacked

section Sign

variable {mantissa : Nat} {exponent : Int}

def signFactor : Sign → ℚ
  | .negative => -1
  | .positive => 1

theorem cast_apply (sign : Sign) (n : Nat) : (sign.apply n : ℚ) = signFactor sign * n := by
  cases sign <;> simp [Sign.apply, signFactor]

@[simp]
theorem abs_signFactor (sign : Sign) : |signFactor sign| = 1 := by
  cases sign <;> simp [signFactor]

theorem signFactor_neg (sign : Sign) : signFactor (-sign) = -signFactor sign := by
  cases sign with
  | negative => exact (neg_neg 1).symm
  | positive => rfl

theorem signFactor_mul (sign sign' : Sign) :
    signFactor (sign * sign') = signFactor sign * signFactor sign' := by
  cases sign with
  | negative =>
      cases sign' with
      | negative => exact ((neg_one_mul (-1)).trans (neg_neg 1)).symm
      | positive => exact (mul_one (-1)).symm
  | positive => cases sign' <;> exact (one_mul _).symm

/-- Settling on a grid does not change the value. -/
theorem valueOf_settle (sign : Sign) {place : Nat} (hplace : place ≤ 2 ^ 53) :
    valueOf (settle sign place exponent) = sign.apply place * 2 ^ exponent := by
  unfold settle
  split
  · next hzero => rw [hzero, cast_apply, Nat.cast_zero, mul_zero, zero_mul, valueOf_zero]
  · split
    · rfl
    · obtain rfl : place = 2 ^ 53 := by omega
      have htwo : (2 : ℚ) ^ (exponent + 1) = 2 ^ exponent * 2 := zpow_add_one₀ two_ne_zero _
      rw [valueOf, cast_apply, cast_apply, htwo]
      push_cast
      ring

theorem isFinite_settle (sign : Sign) (place : Nat) :
    (settle sign place exponent).isFinite = true := by
  unfold settle
  split
  · rfl
  · split <;> rfl

theorem abs_apply_sub (sign : Sign) (first second : ℚ) (m n : Nat) :
    |(sign.apply m : ℚ) * first - sign.apply n * second| = |m * first - n * second| := by
  rw [cast_apply, cast_apply, mul_assoc, mul_assoc, ← mul_sub, abs_mul, abs_signFactor, one_mul]

theorem abs_apply (sign : Sign) (m : Nat) {factor : ℚ} (hfactor : 0 ≤ factor) :
    |(sign.apply m : ℚ) * factor| = m * factor := by
  have hnonneg : (0 : ℚ) ≤ m * factor := mul_nonneg (Nat.cast_nonneg m) hfactor
  rw [cast_apply, mul_assoc, abs_mul, abs_signFactor, one_mul, abs_of_nonneg hnonneg]

theorem two_zpow_pos (exponent : ℤ) : (0 : ℚ) < 2 ^ exponent := zpow_pos two_pos exponent

/-- The highest bit of a number. -/
theorem two_zpow_log2_le (exponent : Int) (hpos : 0 < mantissa) :
    (2 : ℚ) ^ ((mantissa.log2 : ℤ) + exponent) ≤ mantissa * 2 ^ exponent := by
  rw [zpow_add₀ two_ne_zero, zpow_natCast]
  refine mul_le_mul_of_nonneg_right ?_ (two_zpow_pos exponent).le
  exact_mod_cast Nat.log2_self_le hpos.ne'

theorem gridExponent_le_of_lt (hpos : 0 < mantissa)
    (h : (mantissa : ℚ) * 2 ^ exponent < 2 ^ (1023 : ℤ)) :
    gridExponent mantissa exponent ≤ 970 := by
  have hlt := (two_zpow_log2_le exponent hpos).trans_lt h
  rw [zpow_lt_zpow_iff_right₀ one_lt_two] at hlt
  unfold gridExponent
  omega

/-- The grid is as fine as 53 bits, or as the least distance of two numbers. -/
theorem two_zpow_grid_le (hpos : 0 < mantissa) : (2 : ℚ) ^ gridExponent mantissa exponent ≤
    mantissa * 2 ^ exponent / 2 ^ 52 + 2 ^ (-1074 : ℤ) := by
  have hnonneg : (0 : ℚ) ≤ mantissa * 2 ^ exponent / 2 ^ 52 := by positivity
  rcases max_choice ((mantissa.log2 : ℤ) + exponent - 52) (-1074) with hgrid | hgrid
  · rw [gridExponent, hgrid, zpow_sub₀ two_ne_zero]
    have hlog := two_zpow_log2_le exponent hpos
    have hsmall := (two_zpow_pos (-1074)).le
    refine le_trans ?_ (le_add_of_nonneg_right hsmall)
    exact div_le_div_of_nonneg_right hlog (by positivity)
  · rw [gridExponent, hgrid]
    exact le_add_of_nonneg_left hnonneg

/-- A number of 53 bits lies on its grid. -/
theorem exists_eq_mul_grid (hpos : 0 < mantissa) (sign : Sign)
    (h : IsRepresentable (sign.apply mantissa * 2 ^ exponent)) :
    ∃ count : Nat, (mantissa : ℚ) * 2 ^ exponent = count * 2 ^ gridExponent mantissa exponent := by
  obtain ⟨count, scale, heq, hcount, hlow, -⟩ := h
  have habs : (mantissa : ℚ) * 2 ^ exponent = count.natAbs * 2 ^ scale := by
    rw [← abs_apply sign mantissa (two_zpow_pos exponent).le, heq, abs_mul,
      abs_of_pos (two_zpow_pos scale), Nat.cast_natAbs, Int.cast_abs]
  have hless : (mantissa : ℚ) * 2 ^ exponent < 2 ^ (53 + scale) := by
    rw [habs, zpow_add₀ two_ne_zero]
    refine mul_lt_mul_of_pos_right ?_ (two_zpow_pos scale)
    rw [Int.abs_eq_natAbs] at hcount
    exact_mod_cast hcount
  have hlog := (two_zpow_log2_le exponent hpos).trans_lt hless
  rw [zpow_lt_zpow_iff_right₀ one_lt_two] at hlog
  have hgrid : gridExponent mantissa exponent ≤ scale := by
    unfold gridExponent
    omega
  obtain ⟨shift, hshift⟩ := Int.eq_ofNat_of_zero_le (sub_nonneg.mpr hgrid)
  refine ⟨count.natAbs * 2 ^ shift, ?_⟩
  have hscale : scale = (shift : ℤ) + gridExponent mantissa exponent := by omega
  rw [habs, hscale, zpow_add₀ two_ne_zero, zpow_natCast]
  push_cast
  ring

/-- The two places around a number are at most one step away from it. -/
theorem abs_place_sub_le {place shift : Nat}
    (hplace : place ∈ Set.Icc (mantissa / 2 ^ shift) (mantissa / 2 ^ shift + 1)) :
    |(place : ℚ) * 2 ^ shift - mantissa| ≤ 2 ^ shift := by
  have hlow : mantissa / 2 ^ shift * 2 ^ shift ≤ mantissa := Nat.div_mul_le_self _ _
  have hhigh : mantissa < (mantissa / 2 ^ shift + 1) * 2 ^ shift := by
    rw [← Nat.div_lt_iff_lt_mul (by positivity)]
    exact Nat.lt_succ_self _
  have hbelow := Nat.mul_le_mul_right (2 ^ shift) hplace.1
  have habove := Nat.mul_le_mul_right (2 ^ shift) hplace.2
  have hup : place * 2 ^ shift ≤ mantissa + 2 ^ shift := by linarith
  have hdown : mantissa ≤ place * 2 ^ shift + 2 ^ shift := by linarith
  rw [abs_le]
  constructor
  · have hcast : (mantissa : ℚ) ≤ place * 2 ^ shift + 2 ^ shift := by exact_mod_cast hdown
    linarith
  · have hcast : (place : ℚ) * 2 ^ shift ≤ mantissa + 2 ^ shift := by exact_mod_cast hup
    linarith

/-- What is not narrower than its grid is rounded. -/
theorem rounds_roundWithAccuracy (sign : Sign) (hpos : 0 < mantissa)
    (hgrid : exponent ≤ gridExponent mantissa exponent)
    (hhigh : gridExponent mantissa exponent ≤ 970) :
    Rounds (sign.apply mantissa * 2 ^ exponent)
      (roundWithAccuracy Format.binary64 sign mantissa exponent .exact) := by
  obtain ⟨place, hround, hplace, hexact⟩ := exists_roundWithAccuracy_eq sign hgrid
  have hwell := settle_wellFormed sign hpos hgrid hplace hhigh
  have hbits := div_two_pow_grid_lt mantissa exponent
  have hlast : place ≤ 2 ^ 53 := by
    have habove := hplace.2
    omega
  obtain ⟨shift, hshift⟩ : ∃ shift : Nat, shift = (gridExponent mantissa exponent - exponent).toNat :=
    ⟨_, rfl⟩
  rw [← hshift] at hplace hexact
  have hscale : (2 : ℚ) ^ gridExponent mantissa exponent = 2 ^ shift * 2 ^ exponent := by
    rw [← zpow_natCast, ← zpow_add₀ two_ne_zero]
    congr 1
    omega
  have hpower := two_zpow_pos exponent
  rw [hround]
  refine ⟨hwell, isFinite_settle _ _, ?_, fun hrepresentable => ?_, fun hnonneg => ?_⟩
  · rw [valueOf_settle sign hlast, abs_apply_sub, abs_apply sign _ hpower.le]
    refine le_trans ?_ (two_zpow_grid_le hpos)
    rw [hscale, ← mul_assoc, ← sub_mul, abs_mul, abs_of_pos hpower]
    exact mul_le_mul_of_nonneg_right (abs_place_sub_le hplace) hpower.le
  · obtain ⟨count, hcount⟩ := exists_eq_mul_grid hpos sign hrepresentable
    rw [hscale, ← mul_assoc] at hcount
    have hmantissa : mantissa = count * 2 ^ shift := by
      exact_mod_cast mul_right_cancel₀ hpower.ne' hcount
    rw [valueOf_settle sign hlast, hexact count hmantissa, hscale]
    have hvalue : (mantissa : ℚ) = count * 2 ^ shift := by exact_mod_cast hmantissa
    rw [cast_apply, cast_apply, hvalue]
    ring
  · have hplus := two_zpow_pos (gridExponent mantissa exponent)
    have hsign : 0 ≤ signFactor sign := by
      rw [cast_apply, mul_assoc] at hnonneg
      exact nonneg_of_mul_nonneg_left hnonneg (by positivity)
    rw [valueOf_settle sign hlast, cast_apply]
    positivity

/-- The grid of a number does not depend on how it is written. -/
theorem gridExponent_mul_two_pow (hpos : 0 < mantissa) (count : Nat) :
    gridExponent (mantissa * 2 ^ count) (exponent - count) = gridExponent mantissa exponent := by
  rw [gridExponent, gridExponent, log2_mul_two_pow hpos]
  congr 1
  omega

theorem apply_mul_two_pow (sign : Sign) (mantissa : Nat) (exponent : Int) (count : Nat) :
    (sign.apply (mantissa * 2 ^ count : Nat) : ℚ) * 2 ^ (exponent - count) =
      sign.apply mantissa * 2 ^ exponent := by
  have hcount := (two_zpow_pos count).ne'
  rw [zpow_natCast] at hcount
  rw [zpow_sub₀ two_ne_zero, zpow_natCast]
  rw [cast_apply, cast_apply]
  push_cast
  field_simp

theorem rounds_round (sign : Sign) (hpos : 0 < mantissa)
    (hhigh : gridExponent mantissa exponent ≤ 970) :
    Rounds (sign.apply mantissa * 2 ^ exponent) (UnpackedFloat.round Format.binary64 sign mantissa exponent) := by
  have hround : UnpackedFloat.round Format.binary64 sign mantissa exponent =
      roundWithAccuracy Format.binary64 sign
        (mantissa * 2 ^ (exponent - gridExponent mantissa exponent).toNat)
        (exponent - (exponent - gridExponent mantissa exponent).toNat) .exact := by
    unfold UnpackedFloat.round decreaseExponent
    rw [targetExponent_eq, ← Nat.shiftLeft_eq]
  rw [hround, ← apply_mul_two_pow sign mantissa exponent (exponent - gridExponent mantissa exponent).toNat]
  apply rounds_roundWithAccuracy sign (by positivity)
  · rw [gridExponent_mul_two_pow hpos]
    omega
  · rw [gridExponent_mul_two_pow hpos]
    exact hhigh

theorem rounds_zero (sign : Sign) : Rounds 0 (.zero sign) where
  wellFormed := trivial
  isFinite := rfl
  near := by
    rw [valueOf_zero, sub_self, abs_zero, zero_div, zero_add]
    exact (two_zpow_pos _).le
  exact := fun _ => rfl
  nonneg := fun _ => le_rfl

theorem rounds_normalize (mantissa : ℤ) (exponent : ℤ) (sign : Sign)
    (h : |(mantissa : ℚ) * 2 ^ exponent| < 2 ^ (1023 : ℤ)) :
    Rounds (mantissa * 2 ^ exponent) (UnpackedFloat.normalize Format.binary64 mantissa exponent sign) := by
  have hpower := two_zpow_pos exponent
  unfold UnpackedFloat.normalize
  rcases lt_trichotomy mantissa 0 with hneg | rfl | hpos
  · have hnat : 0 < (-mantissa).toNat := by omega
    have hvalue : (mantissa : ℚ) = Sign.negative.apply (-mantissa).toNat := by
      rw [Sign.apply, Int.toNat_of_nonneg (by omega), neg_neg]
    rw [compare_lt_iff_lt.mpr hneg, hvalue]
    refine rounds_round .negative hnat (gridExponent_le_of_lt hnat ?_)
    rwa [hvalue, abs_apply _ _ hpower.le] at h
  · rw [compare_eq_iff_eq.mpr rfl, Int.cast_zero, zero_mul]
    exact rounds_zero sign
  · have hnat : 0 < mantissa.toNat := by omega
    have hvalue : (mantissa : ℚ) = Sign.positive.apply mantissa.toNat := by
      rw [Sign.apply, Int.toNat_of_nonneg (by omega)]
    rw [compare_gt_iff_gt.mpr hpos, hvalue]
    refine rounds_round .positive hnat (gridExponent_le_of_lt hnat ?_)
    rwa [hvalue, abs_apply _ _ hpower.le] at h

end Sign

section Operations

variable {u v : UnpackedFloat}

/-- Written on a narrower grid a number keeps its value. -/
theorem apply_decreaseExponent (sign : Sign) (mantissa : Nat) {exponent target : Int}
    (htarget : target ≤ exponent) :
    (sign.apply (decreaseExponent mantissa exponent target).1 : ℚ) * 2 ^ target =
      sign.apply mantissa * 2 ^ exponent := by
  have hshift := apply_mul_two_pow sign mantissa exponent (exponent - target).toNat
  have hexponent : exponent - (exponent - target).toNat = target := by omega
  rw [hexponent, ← Nat.shiftLeft_eq] at hshift
  exact hshift

/-- Two finite numbers are subtracted on the narrower one of their grids. -/
theorem valueOf_sub_valueOf {sign sign' : Sign} {mantissa mantissa' : Nat}
    {exponent exponent' : Int} (hpos : 0 < mantissa) (hpos' : 0 < mantissa') :
    valueOf (.finite sign mantissa exponent hpos) -
        valueOf (.finite sign' mantissa' exponent' hpos') =
      ((sign.apply (decreaseExponent mantissa exponent (min exponent exponent')).1 -
        sign'.apply (decreaseExponent mantissa' exponent' (min exponent exponent')).1 : ℤ) : ℚ) *
          2 ^ min exponent exponent' := by
  rw [Int.cast_sub, sub_mul, apply_decreaseExponent _ _ (min_le_left _ _),
    apply_decreaseExponent _ _ (min_le_right _ _)]
  rfl

theorem valueOf_finite_ne_zero {sign : Sign} {mantissa : Nat} {exponent : Int}
    (hpos : 0 < mantissa) : valueOf (.finite sign mantissa exponent hpos) ≠ 0 := by
  have hpower := two_zpow_pos exponent
  have habs := abs_apply sign mantissa hpower.le
  rw [valueOf, ← abs_pos, habs]
  positivity

theorem valueOf_neg (u : UnpackedFloat) : valueOf u.neg = -valueOf u := by
  cases u with
  | finite sign mantissa exponent hpos =>
      rw [neg, valueOf, valueOf, cast_apply, cast_apply, signFactor_neg]
      ring
  | _ => exact neg_zero.symm

theorem wellFormed_neg (h : WellFormed u) : WellFormed u.neg := by
  cases u <;> exact h

theorem wellFormed_abs (h : WellFormed u) : WellFormed u.abs := by
  cases u <;> exact h

/-- A number that is itself the result needs no rounding. -/
theorem rounds_valueOf (hu : WellFormed u) (hfinite : u.isFinite = true) :
    Rounds (valueOf u) u where
  wellFormed := hu
  isFinite := hfinite
  near := by
    rw [sub_self, abs_zero]
    positivity
  exact := fun _ => rfl
  nonneg := id

/-- Subtraction gives the nearest number to the exact difference. -/
theorem rounds_sub (hu : WellFormed u) (hv : WellFormed v) (hu' : u.isFinite = true)
    (hv' : v.isFinite = true) (h : |valueOf u - valueOf v| < 2 ^ (1023 : ℤ)) :
    Rounds (valueOf u - valueOf v) (sub Format.binary64 u v) := by
  cases u, hu' using isFinite_cases with
  | zero sign =>
      rw [valueOf_zero, zero_sub] at h ⊢
      cases v, hv' using isFinite_cases with
      | zero sign' =>
          rw [valueOf_zero, neg_zero]
          cases sign <;> cases sign' <;> exact rounds_zero _
      | finite sign' mantissa exponent hpos =>
          rw [← valueOf_neg]
          exact rounds_valueOf (wellFormed_neg hv) rfl
  | finite sign mantissa exponent hpos =>
      cases v, hv' using isFinite_cases with
      | zero sign' =>
          rw [valueOf_zero, sub_zero]
          exact rounds_valueOf hu rfl
      | finite sign' mantissa' exponent' hpos' =>
          rw [valueOf_sub_valueOf] at h ⊢
          exact rounds_normalize _ _ _ h

/-- A difference of equal numbers is the positive zero. -/
theorem sub_eq_zero_positive (hu : u ≠ .zero .negative) (hu' : u.isFinite = true)
    (hv' : v.isFinite = true) (h : valueOf u - valueOf v = 0) :
    sub Format.binary64 u v = .zero .positive := by
  cases u, hu' using isFinite_cases with
  | zero sign =>
      cases v, hv' using isFinite_cases with
      | zero sign' =>
          cases sign with
          | negative => exact absurd rfl hu
          | positive => cases sign' <;> rfl
      | finite sign' mantissa exponent hpos =>
          rw [valueOf_zero, zero_sub, neg_eq_zero] at h
          exact absurd h (valueOf_finite_ne_zero hpos)
  | finite sign mantissa exponent hpos =>
      cases v, hv' using isFinite_cases with
      | zero sign' =>
          rw [valueOf_zero, sub_zero] at h
          exact absurd h (valueOf_finite_ne_zero hpos)
      | finite sign' mantissa' exponent' hpos' =>
          rw [valueOf_sub_valueOf, mul_eq_zero, Int.cast_eq_zero] at h
          have hmantissa := h.resolve_right (two_zpow_pos _).ne'
          simp only [sub, hmantissa]
          rfl

theorem add_eq_sub_neg (u v : UnpackedFloat) :
    add Format.binary64 u v = sub Format.binary64 u v.neg := by
  cases u with
  | notANumber => rfl
  | infinity sign =>
      cases v with
      | infinity sign' => cases sign <;> cases sign' <;> rfl
      | _ => rfl
  | zero sign =>
      cases v with
      | zero sign' => cases sign <;> cases sign' <;> rfl
      | infinity sign' => cases sign' <;> rfl
      | finite sign' => cases sign' <;> rfl
      | notANumber => rfl
  | finite sign mantissa exponent hpos =>
      cases v with
      | infinity sign' => cases sign' <;> rfl
      | zero sign' => rfl
      | notANumber => rfl
      | finite sign' mantissa' exponent' hpos' =>
          cases sign' with
          | negative =>
              simp only [add, sub, neg]
              change UnpackedFloat.normalize _ (_ + -_) _ _ = UnpackedFloat.normalize _ (_ - _) _ _
              rw [← sub_eq_add_neg]
              rfl
          | positive =>
              simp only [add, sub, neg]
              change UnpackedFloat.normalize _ (_ + _) _ _ = UnpackedFloat.normalize _ (_ - -_) _ _
              rw [sub_neg_eq_add]
              rfl

theorem apply_mul_apply (sign sign' : Sign) (m n : Nat) :
    ((sign * sign').apply (m * n : Nat) : ℚ) = sign.apply m * sign'.apply n := by
  rw [cast_apply, cast_apply, cast_apply, signFactor_mul]
  push_cast
  ring

/-- A product has at least 53 bits, or it lies below the narrowest grid. -/
theorem add_le_gridExponent {m n : Nat} {e f : Int} (hm : 0 < m) (hn : 0 < n)
    (h : IsCanonical m e) (h' : IsCanonical n f) : e + f ≤ gridExponent (m * n) (e + f) := by
  have hfull : 2 ^ 52 ≤ m * n ∨ e + f ≤ -1074 := by
    rcases h.full with hfull | he
    · exact .inl (hfull.trans (Nat.le_mul_of_pos_right m hn))
    · rcases h'.full with hfull' | hf
      · exact .inl (hfull'.trans (Nat.le_mul_of_pos_left n hm))
      · exact .inr (by omega)
  rcases hfull with hfull | hlow
  · have hlog : 52 ≤ (m * n).log2 := (Nat.le_log2 (Nat.mul_pos hm hn).ne').mpr hfull
    unfold gridExponent
    omega
  · exact hlow.trans le_gridExponent

/-- Multiplication gives the nearest number to the exact product. -/
theorem rounds_mul (hu : WellFormed u) (hv : WellFormed v) (hu' : u.isFinite = true)
    (hv' : v.isFinite = true) (h : |valueOf u * valueOf v| < 2 ^ (1023 : ℤ)) :
    Rounds (valueOf u * valueOf v) (mul Format.binary64 u v) := by
  cases u, hu' using isFinite_cases with
  | zero sign =>
      rw [valueOf_zero, zero_mul]
      cases v, hv' using isFinite_cases with
      | zero sign' => exact rounds_zero _
      | finite => exact rounds_zero _
  | finite sign mantissa exponent hpos =>
      cases v, hv' using isFinite_cases with
      | zero sign' =>
          rw [valueOf_zero, mul_zero]
          exact rounds_zero _
      | finite sign' mantissa' exponent' hpos' =>
          have hvalue : valueOf (.finite sign mantissa exponent hpos) *
              valueOf (.finite sign' mantissa' exponent' hpos') =
            (sign * sign').apply (mantissa * mantissa' : Nat) * 2 ^ (exponent + exponent') := by
            rw [valueOf, valueOf, zpow_add₀ two_ne_zero, apply_mul_apply]
            ring
          have hproduct : 0 < mantissa * mantissa' := Nat.mul_pos hpos hpos'
          have hgrid : exponent + exponent' ≤
              gridExponent (mantissa * mantissa') (exponent + exponent') :=
            add_le_gridExponent hpos hpos' hu hv
          rw [hvalue] at h ⊢
          rw [abs_apply _ _ (two_zpow_pos _).le] at h
          exact rounds_roundWithAccuracy _ hproduct hgrid (gridExponent_le_of_lt hproduct h)

end Operations

end Hungarian.Double
