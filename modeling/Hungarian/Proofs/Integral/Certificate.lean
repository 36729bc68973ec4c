import Hungarian.Proofs.Integral.Simulation

/-!
# The certificate of whole costs in double precision

The allowance of a cell is not a whole number, and it is rounded. It is not negative, which is all
that matters where no reduced cost is negative and those of the matched cells are zero.
-/

namespace Hungarian

open CostArithmetic

namespace Double

variable {x y : Float} {q r : ℚ}

theorem Stores.abs (hx : Stores x q) : Stores (absolute x) |q| where
  denotes := hx.denotes.abs
  isSmall := by
    obtain ⟨count, hcount, habs⟩ := hx.isSmall
    exact ⟨|count|, by rw [hcount, Int.cast_abs], by rwa [abs_abs]⟩

theorem Stores.abs_le (hx : Stores x q) : |q| ≤ 2 ^ 53 := by
  obtain ⟨count, hcount, habs⟩ := hx.isSmall
  rw [hcount, ← Int.cast_abs]
  exact_mod_cast habs

theorem roundingUnit_eq : (roundingUnit : Float) =
    ofKind (.finite .positive (2 ^ 52) (-102) (by norm_num)) := by decide +kernel

theorem kind_roundingUnit :
    kind roundingUnit = .finite .positive (2 ^ 52) (-102) (by norm_num) := by
  rw [roundingUnit_eq]
  exact kind_ofKind ⟨by norm_num, by norm_num, by norm_num, .inl le_rfl⟩

theorem value_roundingUnit : value roundingUnit = 1 / 2 ^ 50 := by
  rw [value, kind_roundingUnit, valueOf_positive]
  norm_num

theorem isFinite_roundingUnit : (roundingUnit : Float).isFinite = true := by
  change (kind roundingUnit).isFinite = true
  rw [kind_roundingUnit]
  rfl

theorem lt_two_zpow_of_lt (h : q < 64) : q < 2 ^ (1023 : ℤ) :=
  calc q < 64 := h
    _ = 2 ^ (6 : ℤ) := by norm_num
    _ ≤ 2 ^ (1023 : ℤ) := zpow_le_zpow_right₀ one_le_two (by norm_num)

/-- The rounding error of a whole number, itself rounded. -/
theorem roundingUnit_mul_mem (hy : Stores y r) (hr : 0 ≤ r) :
    (roundingUnit * y).isFinite = true ∧ value (roundingUnit * y) ∈ Set.Icc 0 32 := by
  have hle := hy.abs_le
  rw [abs_of_nonneg hr] at hle
  have htiny : (2 : ℚ) ^ (-1074 : ℤ) ≤ 1 := zpow_le_one_of_nonpos₀ one_le_two (by norm_num)
  have hexact : 0 ≤ 1 / 2 ^ 50 * r := by positivity
  have hvalue : value roundingUnit * value y = 1 / 2 ^ 50 * r :=
    congrArg₂ (· * ·) value_roundingUnit hy.denotes.value_eq
  have hrounds := rounds_kind_mul isFinite_roundingUnit hy.denotes.isFinite
  rw [hvalue, abs_of_nonneg hexact] at hrounds
  have hproduct := hrounds (lt_two_zpow_of_lt (by linarith))
  refine ⟨hproduct.isFinite, hproduct.nonneg hexact, ?_⟩
  have hnear := (abs_le.mp hproduct.near).2
  rw [abs_of_nonneg hexact] at hnear
  change valueOf (kind (roundingUnit * y)) ≤ 32
  linarith

/-- A tolerance and the rounding error of a whole number are not negative together. -/
theorem add_roundingUnit_mul (hfinite : x.isFinite = true) (hnonneg : 0 ≤ value x)
    (hless : value x < 1) (hy : Stores y r) (hr : 0 ≤ r) :
    (x + roundingUnit * y).isFinite = true ∧ 0 ≤ value (x + roundingUnit * y) := by
  obtain ⟨hproduct, hpositive, hsmall⟩ := roundingUnit_mul_mem hy hr
  have hexact := add_nonneg hnonneg hpositive
  have hbound : |value x + value (roundingUnit * y)| < 2 ^ (1023 : ℤ) := by
    rw [abs_of_nonneg hexact]
    exact lt_two_zpow_of_lt (by linarith)
  have hsum := rounds_add hfinite hproduct hbound
  exact ⟨hsum.isFinite, hsum.nonneg hexact⟩

end Double

variable {size : Nat} {double : Problem Float size} {problem : Problem ℚ size} {low spread : ℤ}
  {potentials : Potentials Float size} {exact : Potentials ℚ size} {row col : Fin size}

section Cells

variable (h : double.Stores problem) (hproblem : problem.IsIntegral low spread)
  (hpotentials : potentials.Stores problem low spread exact)

include h hpotentials

theorem Problem.Stores.allowance_nonneg (row col : Fin size) :
    (potentials.allowance double row col).isFinite = true ∧
      0 ≤ Double.value (potentials.allowance double row col) := by
  have hmagnitude := (h.cost row col).abs.greater
    ((hpotentials.rows row).abs.greater (hpotentials.cols col).abs)
  refine Double.add_roundingUnit_mul h.epsilon_isFinite h.epsilon_nonneg h.epsilon_lt_one
    hmagnitude ?_
  exact le_max_of_le_left (abs_nonneg _)

include hproblem

theorem Problem.Stores.reducedCost (row col : Fin size) :
    Double.Stores (potentials.reducedCost double row col) (exact.reducedCost problem row col) :=
  (h.alike hproblem).reducedCost hpotentials row col

theorem Problem.Stores.isFeasible (part : Fin size → Fin size → Bool) :
    potentials.isFeasible double part = true := by
  rw [Potentials.isFeasible, List.all_eq_true]
  rintro ⟨row, col⟩ -
  obtain ⟨hfinite, hnonneg⟩ := h.allowance_nonneg hpotentials row col
  have hreduced := (h.reducedCost hproblem hpotentials row col).denotes
  rw [Bool.or_eq_true, decide_eq_true_eq,
    Double.le_iff_value (Double.isFinite_neg_iff.mpr hfinite) hreduced.isFinite, Double.value_neg,
    hreduced.value_eq]
  exact .inr ((neg_nonpos.mpr hnonneg).trans (hpotentials.isIntegral.feasible row col))

/-- A reduced cost that is less than one is zero. -/
theorem Problem.Stores.isTight (hnear : exact.reducedCost problem row col ≤ problem.epsilon) :
    potentials.isTight double row col = true := by
  obtain ⟨hfinite, hnonneg⟩ := h.allowance_nonneg hpotentials row col
  have hreduced := (h.reducedCost hproblem hpotentials row col).denotes.abs
  have hzero : exact.reducedCost problem row col = 0 := by
    have hmem := hpotentials.isIntegral.generated.reducedCost_mem hproblem.cost_mem_zmultiples
      row col
    exact eq_zero_of_mem_zmultiples zero_lt_one hmem (hpotentials.isIntegral.feasible row col)
      (hnear.trans_lt hproblem.epsilon_lt_one)
  refine decide_eq_true ((Double.le_iff_value hreduced.isFinite hfinite).mpr ?_)
  rw [hreduced.value_eq, hzero, abs_zero]
  exact hnonneg

end Cells

/-- Rounding in the allowance cannot spoil a certificate over whole numbers. -/
theorem Solution.isCertified_of_stores {solution : Solution Float size}
    (h : double.Stores problem) (hproblem : problem.IsIntegral low spread)
    (hpotentials : solution.potentials.Stores problem low spread exact)
    (hsupports : exact.Supports problem solution.matching)
    (hcount : solution.matching.count = size) : solution.isCertified double = true := by
  have htight : (solution.matching.pairs.all fun cell =>
      solution.potentials.isTight double cell.1 cell.2) = true := by
    rw [List.all_eq_true]
    rintro ⟨row, col⟩ hpair
    have hnear := hsupports.matched_near row col (Matching.mem_pairs.mp hpair)
    exact h.isTight hproblem hpotentials hnear
  rw [isCertified, h.isFeasible hproblem hpotentials, htight, beq_iff_eq.mpr hcount]
  rfl

end Hungarian
