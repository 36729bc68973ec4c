import Hungarian.Proofs.Double.Layout

/-!
# Comparisons of numbers

Two numbers are compared by their levels, in which the zeros agree. The rank of the total order
tells the zeros apart and puts what is not a number above everything else.
-/

namespace Hungarian.Double

open Float.Model (UnpackedFloat)
open Float.Model.UnpackedFloat

variable {x y : Float} {u : UnpackedFloat}

def level (unpacked : UnpackedFloat) : ℤ :=
  if isNegative unpacked then -magnitude unpacked else magnitude unpacked

theorem level_nonneg (h : isNegative u = false) : 0 ≤ level u := by
  rw [level, if_neg (Bool.not_eq_true _ ▸ h)]
  exact Int.natCast_nonneg _

theorem level_nonpos (h : isNegative u = true) : level u ≤ 0 := by
  rw [level, if_pos h]
  exact neg_nonpos.mpr (Int.natCast_nonneg _)

/-- Away from the zeros the level tells the sign. -/
theorem isNegative_iff_level_neg (h : level u ≠ 0) : isNegative u = true ↔ level u < 0 := by
  refine ⟨fun hnegative => lt_of_le_of_ne (level_nonpos hnegative) h, fun hlt => ?_⟩
  by_contra hpositive
  exact absurd hlt (level_nonneg (Bool.eq_false_iff.mpr hpositive)).not_gt

theorem rank_eq (x : Float) :
    rank x = if isNegative (kind x) = true then level (kind x) - 1 else level (kind x) := by
  unfold rank level
  split
  · ring
  · rfl

theorem rank_eq_level (h : isNegative (kind x) = false) : rank x = level (kind x) := by
  rw [rank_eq, h, if_neg Bool.false_ne_true]

/-- Exponent first and mantissa second is the order of the two as one integer. -/
theorem compare_eq_compare {m₁ m₂ : Nat} {e₁ e₂ : Int} (h₁ : IsCanonical m₁ e₁)
    (h₂ : IsCanonical m₂ e₂) : (compare e₁ e₂).then (compare m₁ m₂) =
      compare ((e₁ + 1074).toNat * 2 ^ 52 + m₁) ((e₂ + 1074).toNat * 2 ^ 52 + m₂) := by
  obtain ⟨hm₁, hlow₁, -, hfull₁⟩ := h₁
  obtain ⟨hm₂, hlow₂, -, hfull₂⟩ := h₂
  rcases lt_trichotomy e₁ e₂ with hlt | rfl | hgt
  · rw [compare_lt_iff_lt.mpr hlt]
    exact (compare_lt_iff_lt.mpr (by omega)).symm
  · rw [compare_eq_iff_eq.mpr rfl]
    rcases lt_trichotomy m₁ m₂ with hlt | rfl | hgt
    · rw [compare_lt_iff_lt.mpr hlt]
      exact (compare_lt_iff_lt.mpr (by omega)).symm
    · rw [compare_eq_iff_eq.mpr rfl, compare_eq_iff_eq.mpr rfl]
      rfl
    · rw [compare_gt_iff_gt.mpr hgt]
      exact (compare_gt_iff_gt.mpr (by omega)).symm
  · rw [compare_gt_iff_gt.mpr hgt]
    exact (compare_gt_iff_gt.mpr (by omega)).symm

section Level

variable {mantissa : Nat} {exponent : Int} {hpos : 0 < mantissa}

@[simp]
theorem level_zero (sign : Sign) : level (.zero sign) = 0 := by
  cases sign <;> rfl

@[simp]
theorem level_infinity_positive : level (.infinity .positive) = (2047 * 2 ^ 52 : Nat) := by
  simp [level, isNegative, magnitude]

@[simp]
theorem level_infinity_negative : level (.infinity .negative) = -(2047 * 2 ^ 52 : Nat) := by
  simp [level, isNegative, magnitude]

theorem level_positive : level (.finite .positive mantissa exponent hpos) =
    ((exponent + 1074).toNat * 2 ^ 52 + mantissa : Nat) := by
  simp [level, isNegative, magnitude]

theorem level_negative : level (.finite .negative mantissa exponent hpos) =
    -((exponent + 1074).toNat * 2 ^ 52 + mantissa : Nat) := by
  simp [level, isNegative, magnitude]

/-- Finite numbers lie strictly between the infinities. -/
theorem level_finite_mem (sign : Sign) (h : IsCanonical mantissa exponent) :
    level (.finite sign mantissa exponent hpos) ∈
      Set.Ioo (-(2047 * 2 ^ 52 : Nat) : ℤ) (2047 * 2 ^ 52 : Nat) := by
  obtain ⟨hmantissa, hlow, hhigh, -⟩ := h
  cases sign with
  | negative =>
      rw [level_negative, Set.mem_Ioo]
      omega
  | positive =>
      rw [level_positive, Set.mem_Ioo]
      omega

theorem level_positive_pos : 0 < level (.finite .positive mantissa exponent hpos) := by
  rw [level_positive]
  omega

theorem level_negative_neg : level (.finite .negative mantissa exponent hpos) < 0 := by
  rw [level_negative]
  omega

end Level

theorem compare_natCast (m n : Nat) : compare (m : ℤ) (n : ℤ) = compare m n := by
  simp only [compare, compareOfLessAndEq, Nat.cast_lt, Nat.cast_inj]

theorem compare_neg_natCast (m n : Nat) : compare (-m : ℤ) (-n : ℤ) = compare n m := by
  simp only [compare, compareOfLessAndEq, neg_lt_neg_iff, neg_inj, Nat.cast_lt, Nat.cast_inj,
    eq_comm]

theorem compare_finite_eq_some {sign sign' : Sign} {m n : Nat} {e f : Int} {hm : 0 < m}
    {hn : 0 < n} (h : IsCanonical m e) (h' : IsCanonical n f) :
    (UnpackedFloat.finite sign m e hm).compare (.finite sign' n f hn) =
      some (compare (level (.finite sign m e hm)) (level (.finite sign' n f hn))) := by
  have hcompare := compare_eq_compare h h'
  cases sign with
  | negative =>
      cases sign' with
      | negative =>
          rw [level_negative, level_negative, compare_neg_natCast, ← Nat.compare_swap, ← hcompare]
          rfl
      | positive =>
          exact congrArg some
            (compare_lt_iff_lt.mpr (level_negative_neg.trans level_positive_pos)).symm
  | positive =>
      cases sign' with
      | negative =>
          exact congrArg some
            (compare_gt_iff_gt.mpr (level_negative_neg.trans level_positive_pos)).symm
      | positive =>
          rw [level_positive, level_positive, compare_natCast, ← hcompare]
          rfl

theorem compare_eq_some {u v : UnpackedFloat} (hu : WellFormed u) (hv : WellFormed v)
    (hnumber : u ≠ .notANumber) (hnumber' : v ≠ .notANumber) :
    u.compare v = some (compare (level u) (level v)) := by
  cases u with
  | notANumber => exact absurd rfl hnumber
  | infinity sign =>
      cases v with
      | notANumber => exact absurd rfl hnumber'
      | infinity sign' => cases sign <;> cases sign' <;> rfl
      | zero sign' => cases sign <;> cases sign' <;> rfl
      | finite sign' =>
          obtain ⟨hlow, hhigh⟩ := level_finite_mem sign' hv
          cases sign with
          | negative => exact congrArg some (compare_lt_iff_lt.mpr hlow).symm
          | positive => exact congrArg some (compare_gt_iff_gt.mpr hhigh).symm
  | zero sign =>
      cases v with
      | notANumber => exact absurd rfl hnumber'
      | infinity sign' => cases sign <;> cases sign' <;> rfl
      | zero sign' => cases sign <;> cases sign' <;> rfl
      | finite sign' =>
          rw [level_zero]
          cases sign' with
          | negative => exact congrArg some (compare_gt_iff_gt.mpr level_negative_neg).symm
          | positive => exact congrArg some (compare_lt_iff_lt.mpr level_positive_pos).symm
  | finite sign mantissa exponent hpos =>
      cases v with
      | notANumber => exact absurd rfl hnumber'
      | infinity sign' =>
          obtain ⟨hlow, hhigh⟩ := level_finite_mem sign hu
          cases sign' with
          | negative =>
              refine (?_ : _ = some Ordering.gt).trans
                (congrArg some (compare_gt_iff_gt.mpr hlow)).symm
              cases sign <;> rfl
          | positive =>
              refine (?_ : _ = some Ordering.lt).trans
                (congrArg some (compare_lt_iff_lt.mpr hhigh)).symm
              cases sign <;> rfl
      | zero sign' =>
          rw [level_zero]
          cases sign with
          | negative => exact congrArg some (compare_lt_iff_lt.mpr level_negative_neg).symm
          | positive => exact congrArg some (compare_gt_iff_gt.mpr level_positive_pos).symm
      | finite sign' mantissa' exponent' hpos' => exact compare_finite_eq_some hu hv

@[simp]
theorem compare_notANumber (u : UnpackedFloat) : u.compare .notANumber = none := by
  cases u with
  | infinity sign => cases sign <;> rfl
  | notANumber => rfl
  | zero => rfl
  | finite sign => cases sign <;> rfl

/-- The order of two numbers is that of their levels. -/
theorem compare_eq_some_iff {order : Ordering} : (kind x).compare (kind y) = some order ↔
    kind x ≠ .notANumber ∧ kind y ≠ .notANumber ∧
      compare (level (kind x)) (level (kind y)) = order := by
  by_cases hx : kind x = .notANumber
  · have hnone : UnpackedFloat.compare .notANumber (kind y) = none := rfl
    simp [hx, hnone]
  · by_cases hy : kind y = .notANumber
    · simp [hy]
    · rw [compare_eq_some (wellFormed_kind x) (wellFormed_kind y) hx hy, Option.some.injEq]
      exact ⟨fun h => ⟨hx, hy, h⟩, fun h => h.2.2⟩

theorem lt_iff : x < y ↔
    kind x ≠ .notANumber ∧ kind y ≠ .notANumber ∧ level (kind x) < level (kind y) := by
  rw [← compare_lt_iff_lt, ← compare_eq_some_iff]
  change decide ((kind x).lt (kind y) = true) = true ↔ _
  rw [decide_eq_true_iff, UnpackedFloat.lt, beq_iff_eq]

theorem le_iff : x ≤ y ↔
    kind x ≠ .notANumber ∧ kind y ≠ .notANumber ∧ level (kind x) ≤ level (kind y) := by
  have hle : x ≤ y ↔ (kind x).compare (kind y) = some .lt ∨ (kind x).compare (kind y) = some .eq := by
    change decide ((kind x).le (kind y) = true) = true ↔ _
    rw [decide_eq_true_iff, UnpackedFloat.le]
    rcases (kind x).compare (kind y) with - | - | - | - <;> simp [Ordering.isLE]
  rw [hle, compare_eq_some_iff, compare_eq_some_iff, compare_lt_iff_lt, compare_eq_iff_eq,
    ← and_or_left, ← and_or_left, ← le_iff_lt_or_eq]

theorem le_of_lt (h : x < y) : x ≤ y :=
  le_iff.mpr ((lt_iff.mp h).imp_right (.imp_right Int.le_of_lt))

theorem le_refl_of_number (hx : kind x ≠ .notANumber) : x ≤ x :=
  le_iff.mpr ⟨hx, hx, le_rfl⟩

theorem le_trans_of_le {z : Float} (h : x ≤ y) (h' : y ≤ z) : x ≤ z := by
  obtain ⟨hx, -, hxy⟩ := le_iff.mp h
  obtain ⟨-, hz, hyz⟩ := le_iff.mp h'
  exact le_iff.mpr ⟨hx, hz, hxy.trans hyz⟩

/-- Of two numbers one is at most the other. -/
theorem le_of_not_lt (hx : kind x ≠ .notANumber) (hy : kind y ≠ .notANumber) (h : ¬x < y) :
    y ≤ x := by
  refine le_iff.mpr ⟨hy, hx, not_lt.mp fun hlevel => h ?_⟩
  exact lt_iff.mpr ⟨hx, hy, hlevel⟩

end Hungarian.Double
