import Hungarian.Proofs.Double.Layout

/-!
# Rounding

A number that is no number of 64 bits is rounded to one of its two neighbours on a grid, whose width
is the power of two that leaves it 53 bits, and at least the smallest number. What lies on the grid
stays as it is.
-/

namespace Hungarian.Double

open Float.Model (Format UnpackedFloat totalExponent)
open Float.Model.UnpackedFloat

variable {mantissa : Nat} {exponent : Int}

def gridExponent (mantissa : Nat) (exponent : Int) : Int :=
  max (mantissa.log2 + exponent - 52) (-1074)

theorem targetExponent_eq (mantissa : Nat) (exponent : Int) :
    Format.binary64.targetExponent (totalExponent mantissa exponent) =
      gridExponent mantissa exponent := by
  have hmin : Format.binary64.minExponent = -1074 := by decide
  have hbits : (Format.binary64.mantissaBits : Int) = 53 := rfl
  rw [Format.targetExponent, totalExponent, gridExponent, hmin, hbits]
  congr 1
  omega

/-- The number of a place on a grid; past the last place the grid is twice as wide. -/
def settle (sign : Sign) (place : Nat) (exponent : Int) : UnpackedFloat :=
  if hzero : place = 0 then .zero sign
  else if place < 2 ^ 53 then .finite sign place exponent (Nat.pos_of_ne_zero hzero)
  else .finite sign (2 ^ 52) (exponent + 1) (by decide)

section Shift

theorem shiftRight_succ (extended : ExtendedMantissa) (count : Nat) :
    extended >>> (count + 1) = (extended >>> count).shiftRightOne := rfl

theorem mantissa_shiftRight (extended : ExtendedMantissa) (count : Nat) :
    (extended >>> count).mantissa = extended.mantissa / 2 ^ count := by
  induction count with
  | zero => exact (Nat.div_one _).symm
  | succ count ih =>
      rw [shiftRight_succ, ExtendedMantissa.shiftRightOne, ih, Nat.div_div_eq_div_mul, pow_succ]

/-- Zeros that are shifted out leave no trace. -/
theorem shiftRight_mul (count : Nat) :
    (⟨mantissa * 2 ^ count, false, false⟩ : ExtendedMantissa) >>> count =
      ⟨mantissa, false, false⟩ := by
  induction count generalizing mantissa with
  | zero => exact congrArg (ExtendedMantissa.mk · false false) (Nat.mul_one _)
  | succ count ih =>
      have hshift : (⟨mantissa * 2 * 2 ^ count, false, false⟩ : ExtendedMantissa) >>> count =
          ⟨mantissa * 2, false, false⟩ := ih
      rw [mul_assoc, ← pow_succ'] at hshift
      rw [shiftRight_succ, hshift, ExtendedMantissa.shiftRightOne, Nat.mul_div_cancel _ Nat.two_pos,
        Nat.mul_mod_left]
      rfl

/-- Rounding moves up by at most one place. -/
theorem roundedMantissa_mem (extended : ExtendedMantissa) :
    extended.roundedMantissa ∈ Set.Icc extended.mantissa (extended.mantissa + 1) := by
  obtain ⟨mantissa, roundBit, stickyBit⟩ := extended
  rw [Set.mem_Icc]
  cases roundBit <;> cases stickyBit <;>
    simp [ExtendedMantissa.roundedMantissa, ExtendedMantissa.accuracy,
      Accuracy.roundToNearestEven]
  omega

end Shift

theorem shiftToTargetExponent_eq (mantissa : Nat) (exponent : Int) :
    shiftToTargetExponent Format.binary64 mantissa exponent .exact =
      ((⟨mantissa, false, false⟩ : ExtendedMantissa) >>>
        (gridExponent mantissa exponent - exponent).toNat,
        exponent + (gridExponent mantissa exponent - exponent).toNat) := by
  unfold shiftToTargetExponent shiftToExponent
  rw [targetExponent_eq]
  rfl

theorem le_gridExponent : -1074 ≤ gridExponent mantissa exponent := le_max_right _ _

/-- A rounded mantissa may have become one bit too long, and is then halved. -/
theorem settle_eq (sign : Sign) {place : Nat} (hplace : place ≤ 2 ^ 53)
    (hexponent : -1074 ≤ exponent) :
    (if hzero : (shiftToTargetExponent Format.binary64 place exponent .exact).1.mantissa = 0 then
      .zero sign
    else
      .finite sign (shiftToTargetExponent Format.binary64 place exponent .exact).1.mantissa
        (shiftToTargetExponent Format.binary64 place exponent .exact).2
        (Nat.pos_of_ne_zero hzero)) = settle sign place exponent := by
  by_cases hlt : place < 2 ^ 53
  · have hlog : place.log2 ≤ 52 := by
      by_cases hzero : place = 0
      · rw [hzero]
        decide
      · have hless := (Nat.log2_lt hzero).mpr hlt
        omega
    have hshift : (gridExponent place exponent - exponent).toNat = 0 := by
      unfold gridExponent
      omega
    simp only [shiftToTargetExponent_eq, hshift, mantissa_shiftRight, pow_zero, Nat.div_one,
      Nat.cast_zero, add_zero]
    rw [settle]
    simp only [if_pos hlt]
  · obtain rfl : place = 2 ^ 53 := by omega
    have hshift : (gridExponent (2 ^ 53) exponent - exponent).toNat = 1 := by
      rw [gridExponent, Nat.log2_two_pow]
      omega
    simp only [shiftToTargetExponent_eq, hshift, mantissa_shiftRight]
    rfl

/-- A grid leaves a number 53 bits. -/
theorem div_two_pow_grid_lt (mantissa : Nat) (exponent : Int) :
    mantissa / 2 ^ (gridExponent mantissa exponent - exponent).toNat < 2 ^ 53 := by
  rw [Nat.div_lt_iff_lt_mul (by positivity), ← pow_add]
  refine Nat.lt_log2_self.trans_le (Nat.pow_le_pow_right Nat.two_pos ?_)
  unfold gridExponent
  omega

/-- What is not narrower than its grid is rounded to one of the two places around it. -/
theorem exists_roundWithAccuracy_eq (sign : Sign)
    (hgrid : exponent ≤ gridExponent mantissa exponent) :
    ∃ place, roundWithAccuracy Format.binary64 sign mantissa exponent .exact =
        settle sign place (gridExponent mantissa exponent) ∧
      place ∈ Set.Icc
        (mantissa / 2 ^ (gridExponent mantissa exponent - exponent).toNat)
        (mantissa / 2 ^ (gridExponent mantissa exponent - exponent).toNat + 1) ∧
      ∀ count, mantissa = count * 2 ^ (gridExponent mantissa exponent - exponent).toNat →
        place = count := by
  obtain ⟨shift, hshift⟩ : ∃ shift, shift = (gridExponent mantissa exponent - exponent).toNat :=
    ⟨_, rfl⟩
  rw [← hshift]
  have hexponent : exponent + shift = gridExponent mantissa exponent := by omega
  have hmem := roundedMantissa_mem ((⟨mantissa, false, false⟩ : ExtendedMantissa) >>> shift)
  rw [mantissa_shiftRight] at hmem
  dsimp only at hmem
  refine ⟨_, ?_, hmem, ?_⟩
  · have hbound : mantissa / 2 ^ shift < 2 ^ 53 := by
      rw [hshift]
      exact div_two_pow_grid_lt _ _
    rw [← settle_eq sign (by have := hmem.2; omega) le_gridExponent]
    unfold roundWithAccuracy
    simp only [shiftToTargetExponent_eq mantissa exponent, ← hshift, hexponent]
  · intro count hcount
    rw [hcount, shiftRight_mul]
    rfl

theorem log2_mul_two_pow (hpos : 0 < mantissa) (count : Nat) :
    (mantissa * 2 ^ count).log2 = mantissa.log2 + count := by
  rw [Nat.log2_eq_iff (by positivity), pow_add, pow_succ, pow_add]
  have hlow := Nat.log2_self_le hpos.ne'
  have hhigh := Nat.lt_log2_self (n := mantissa)
  rw [pow_succ] at hhigh
  constructor
  · exact Nat.mul_le_mul_right _ hlow
  · calc mantissa * 2 ^ count < 2 ^ mantissa.log2 * 2 * 2 ^ count :=
        Nat.mul_lt_mul_of_pos_right hhigh (by positivity)
      _ = 2 ^ mantissa.log2 * 2 ^ count * 2 := by ring

theorem settle_wellFormed (sign : Sign) {place : Nat} (hpos : 0 < mantissa)
    (hgrid : exponent ≤ gridExponent mantissa exponent)
    (hplace : place ∈ Set.Icc
      (mantissa / 2 ^ (gridExponent mantissa exponent - exponent).toNat)
      (mantissa / 2 ^ (gridExponent mantissa exponent - exponent).toNat + 1))
    (hhigh : gridExponent mantissa exponent ≤ 970) :
    WellFormed (settle sign place (gridExponent mantissa exponent)) := by
  have hfull : 2 ^ 52 ≤ place ∨ gridExponent mantissa exponent = -1074 := by
    by_cases hmin : gridExponent mantissa exponent = -1074
    · exact .inr hmin
    · have hlog : gridExponent mantissa exponent = mantissa.log2 + exponent - 52 :=
        (max_choice _ _).resolve_right hmin
      refine .inl (le_trans ?_ hplace.1)
      rw [Nat.le_div_iff_mul_le (by positivity), ← pow_add]
      refine (Nat.pow_le_pow_right Nat.two_pos ?_).trans (Nat.log2_self_le hpos.ne')
      omega
  have hlow : -1074 ≤ gridExponent mantissa exponent := le_gridExponent
  unfold settle
  split
  · trivial
  · split
    · next hlt => exact ⟨hlt, hlow, by omega, hfull⟩
    · exact ⟨by omega, by omega, by omega, .inl le_rfl⟩

end Hungarian.Double
