import Hungarian.Proofs.Double.Finite

/-!
# Signs of differences

Rounding and overflow change how large a difference is, but not its sign: finite numbers compare as
their difference compares with zero. A zero counts for both signs, whichever it is written with.
-/

namespace Hungarian.Double

open Float.Model (Format UnpackedFloat)
open Float.Model.UnpackedFloat

variable {x y : Float} {u v : UnpackedFloat} {q : ℚ}

structure Signs (q : ℚ) (u : UnpackedFloat) : Prop where
  nonneg : 0 ≤ q → 0 ≤ level u
  nonpos : q ≤ 0 → level u ≤ 0

theorem signs_zero (q : ℚ) (sign : Sign) : Signs q (.zero sign) where
  nonneg _ := (level_zero sign).ge
  nonpos _ := (level_zero sign).le

/-- The level of a number has the sign of its value. -/
theorem signs_valueOf (h : u.isFinite = true) : Signs (valueOf u) u := by
  cases u, h using isFinite_cases with
  | zero sign => exact signs_zero _ sign
  | finite sign mantissa exponent hpos =>
      cases sign with
      | negative =>
          refine ⟨fun hnonneg => ?_, fun _ => level_negative_neg.le⟩
          have hneg : valueOf (.finite .negative mantissa exponent hpos) < 0 := by
            rw [valueOf_negative, neg_lt_zero]
            positivity
          exact absurd hnonneg hneg.not_ge
      | positive =>
          refine ⟨fun _ => level_positive_pos.le, fun hnonpos => ?_⟩
          have hpos' : 0 < valueOf (.finite .positive mantissa exponent hpos) := by
            rw [valueOf_positive]
            positivity
          exact absurd hnonpos hpos'.not_ge

/-! ### Rounding and packing -/

theorem isNegative_roundWithAccuracy (format : Format) (sign : Sign) (mantissa : Nat)
    (exponent : Int) (accuracy : Accuracy) :
    isNegative (roundWithAccuracy format sign mantissa exponent accuracy) = (sign == .negative) := by
  unfold roundWithAccuracy
  dsimp only
  split_ifs <;> rfl

/-- Whatever is rounded stays on its side of zero. -/
theorem signs_normalize (format : Format) (mantissa exponent : Int) (sign : Sign) :
    Signs (mantissa * 2 ^ exponent) (UnpackedFloat.normalize format mantissa exponent sign) := by
  have hpower := two_zpow_pos exponent
  unfold UnpackedFloat.normalize
  rcases lt_trichotomy mantissa 0 with hneg | rfl | hpos
  · rw [compare_lt_iff_lt.mpr hneg]
    refine ⟨fun hnonneg => ?_, fun _ => level_nonpos (isNegative_roundWithAccuracy _ _ _ _ _)⟩
    have hmantissa : (mantissa : ℚ) < 0 := by exact_mod_cast hneg
    exact absurd hnonneg (mul_neg_of_neg_of_pos hmantissa hpower).not_ge
  · rw [compare_eq_iff_eq.mpr rfl]
    exact signs_zero _ sign
  · rw [compare_gt_iff_gt.mpr hpos]
    refine ⟨fun _ => level_nonneg (isNegative_roundWithAccuracy _ _ _ _ _), fun hnonpos => ?_⟩
    have hmantissa : (0 : ℚ) < mantissa := by exact_mod_cast hpos
    exact absurd hnonpos (mul_pos hmantissa hpower).not_ge

theorem isNegative_unpack_packComponents (sign : Sign) {exponent : BitVec 11}
    (mantissa : BitVec 52) (hexponent : exponent ≠ -1#11) : isNegative (unpack Format.binary64
      (packComponents Format.binary64 sign exponent mantissa)) = (sign == .negative) := by
  unfold unpack
  simp only [unpackExponent_packComponents, unpackSign_packComponents]
  rw [if_neg hexponent]
  split_ifs <;> cases sign <;> rfl

/-- What is too large for a finite number becomes an infinity of its sign. -/
theorem isNegative_kind_ofKind (u : UnpackedFloat) :
    isNegative (kind (ofKind u)) = isNegative u := by
  cases u with
  | notANumber => rfl
  | infinity sign => cases sign <;> rfl
  | zero sign => cases sign <;> rfl
  | finite sign mantissa exponent hpos =>
      change isNegative (unpack Format.binary64 (pack Format.binary64 _)) = (sign == .negative)
      rcases pack_finite_cases sign mantissa exponent hpos with hpack | ⟨field, digits, hfield, hpack⟩
      · rw [hpack]
        cases sign <;> rfl
      · rw [hpack]
        exact isNegative_unpack_packComponents _ _ hfield

theorem Signs.ofKind (h : Signs q u) : Signs q (kind (ofKind u)) := by
  cases u with
  | finite sign mantissa exponent hpos =>
      cases sign with
      | negative =>
          exact ⟨fun hnonneg => absurd (h.nonneg hnonneg) level_negative_neg.not_ge,
            fun _ => level_nonpos (isNegative_kind_ofKind _)⟩
      | positive =>
          exact ⟨fun _ => level_nonneg (isNegative_kind_ofKind _),
            fun hnonpos => absurd (h.nonpos hnonpos) level_positive_pos.not_ge⟩
  | _ =>
      rw [kind_ofKind (by exact trivial)]
      exact h

/-! ### Differences -/

theorem signs_sub (hu : u.isFinite = true) (hv : v.isFinite = true) :
    Signs (valueOf u - valueOf v) (sub Format.binary64 u v) := by
  cases u, hu using isFinite_cases with
  | zero sign =>
      rw [valueOf_zero, zero_sub]
      cases v, hv using isFinite_cases with
      | zero sign' => cases sign <;> cases sign' <;> exact signs_zero _ _
      | finite sign' mantissa exponent hpos =>
          rw [← valueOf_neg]
          exact signs_valueOf rfl
  | finite sign mantissa exponent hpos =>
      cases v, hv using isFinite_cases with
      | zero sign' =>
          rw [valueOf_zero, sub_zero]
          exact signs_valueOf rfl
      | finite sign' mantissa' exponent' hpos' =>
          rw [valueOf_sub_valueOf]
          exact signs_normalize _ _ _ _

section Order

variable (hx : x.isFinite = true) (hy : y.isFinite = true)

include hx hy

/-- A difference has the sign of the exact one, also where it is rounded or overflows. -/
theorem signs_kind_sub : Signs (value x - value y) (kind (x - y)) :=
  (signs_sub hx hy).ofKind

theorem sub_nonneg_of_le (h : y ≤ x) : 0 ≤ x - y := by
  have hvalue : 0 ≤ value x - value y := sub_nonneg.mpr ((le_iff_value hy hx).mp h)
  refine le_iff.mpr ⟨?_, kind_sub_ne_notANumber hx hy, ?_⟩
  · rw [kind_zero]
    exact UnpackedFloat.noConfusion
  · rw [kind_zero, level_zero]
    exact (signs_kind_sub hx hy).nonneg hvalue

theorem sub_nonpos_of_le (h : x ≤ y) : x - y ≤ 0 := by
  have hvalue : value x - value y ≤ 0 := sub_nonpos.mpr ((le_iff_value hx hy).mp h)
  refine le_iff.mpr ⟨kind_sub_ne_notANumber hx hy, ?_, ?_⟩
  · rw [kind_zero]
    exact UnpackedFloat.noConfusion
  · rw [kind_zero, level_zero]
    exact (signs_kind_sub hx hy).nonpos hvalue

end Order

/-- Two numbers are equal when neither is above the other, and then their bits may still differ. -/
theorem beq_of_le_of_le (h : x ≤ y) (h' : y ≤ x) : (x == y) = true := by
  obtain ⟨hx, hy, hle⟩ := le_iff.mp h
  obtain ⟨-, -, hge⟩ := le_iff.mp h'
  have hcompare : (kind x).compare (kind y) = some .eq :=
    compare_eq_some_iff.mpr ⟨hx, hy, compare_eq_iff_eq.mpr (le_antisymm hle hge)⟩
  change (kind x).beq (kind y) = true
  rw [UnpackedFloat.beq, hcompare]
  rfl

end Hungarian.Double
