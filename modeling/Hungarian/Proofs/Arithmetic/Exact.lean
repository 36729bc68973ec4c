import Hungarian.Arithmetic.Exact
import Hungarian.Square

/-!
# Exact arithmetic

The folds of `CostArithmetic` over rational numbers, as the extrema and sums of Mathlib.
-/

namespace Hungarian

namespace CostArithmetic

variable {cost : ℚ} {costs : List ℚ}

@[simp]
theorem belowCeiling_exact (cost : ℚ) : belowCeiling cost = true := rfl

@[simp]
theorem isFinite_exact (cost : ℚ) : isFinite cost = true := rfl

theorem least?_eq_min? (costs : List ℚ) : least? costs = costs.min? := by
  cases costs with
  | nil => rfl
  | cons first rest => exact List.min?_cons'.symm

theorem greatest?_eq_max? (costs : List ℚ) : greatest? costs = costs.max? := by
  cases costs with
  | nil => rfl
  | cons first rest => exact List.max?_cons'.symm

theorem least?_getD_le (h : cost ∈ costs) : (least? costs).getD 0 ≤ cost := by
  rw [least?_eq_min?]
  obtain ⟨least, hleast⟩ := Option.isSome_iff_exists.mp (List.isSome_min?_of_mem h)
  rw [hleast, Option.getD_some]
  exact (List.min?_eq_some_iff.mp hleast).2 cost h

theorem le_greatest?_getD (h : cost ∈ costs) : cost ≤ (greatest? costs).getD 0 := by
  rw [greatest?_eq_max?]
  obtain ⟨greatest, hgreatest⟩ := Option.isSome_iff_exists.mp (List.isSome_max?_of_mem h)
  rw [hgreatest, Option.getD_some]
  exact (List.max?_eq_some_iff.mp hgreatest).2 cost h

theorem least?_getD_mem (h : costs ≠ []) : (least? costs).getD 0 ∈ costs := by
  rw [least?_eq_min?]
  obtain ⟨least, hleast⟩ := Option.isSome_iff_exists.mp (List.isSome_min?_of_ne_nil h)
  rw [hleast, Option.getD_some]
  exact List.min?_mem hleast

theorem greatest?_getD_mem (h : costs ≠ []) : (greatest? costs).getD 0 ∈ costs := by
  rw [greatest?_eq_max?]
  obtain ⟨greatest, hgreatest⟩ := Option.isSome_iff_exists.mp (List.isSome_max?_of_ne_nil h)
  rw [hgreatest, Option.getD_some]
  exact List.max?_mem hgreatest

theorem least?_getD_map_add (h : costs ≠ []) (shift : ℚ) :
    (least? (costs.map (· + shift))).getD 0 = (least? costs).getD 0 + shift := by
  apply le_antisymm
  · exact least?_getD_le (List.mem_map_of_mem (least?_getD_mem h))
  · obtain ⟨cost, hcost, heq⟩ :=
      List.mem_map.mp (least?_getD_mem (mt List.map_eq_nil_iff.mp h))
    rw [← heq]
    gcongr
    exact least?_getD_le hcost

section Group

variable {group : AddSubgroup ℚ} (h : ∀ cost ∈ costs, cost ∈ group)

include h

theorem least?_getD_mem_group : (least? costs).getD 0 ∈ group := by
  by_cases hnil : costs = []
  · rw [hnil]
    exact group.zero_mem
  · exact h _ (least?_getD_mem hnil)

theorem greatest?_getD_mem_group : (greatest? costs).getD 0 ∈ group := by
  by_cases hnil : costs = []
  · rw [hnil]
    exact group.zero_mem
  · exact h _ (greatest?_getD_mem hnil)

end Group

theorem div_mem_zmultiples (count : ℤ) (scale : Nat) :
    (count / scale : ℚ) ∈ AddSubgroup.zmultiples (1 / scale : ℚ) := by
  refine AddSubgroup.mem_zmultiples_iff.mpr ⟨count, ?_⟩
  rw [zsmul_eq_mul, mul_one_div]

theorem eq_zero_of_mem_zmultiples {unit cost : ℚ} (hunit : 0 < unit)
    (hmem : cost ∈ AddSubgroup.zmultiples unit) (hnonneg : 0 ≤ cost) (hless : cost < unit) :
    cost = 0 := by
  obtain ⟨count, rfl⟩ := AddSubgroup.mem_zmultiples_iff.mp hmem
  rw [zsmul_eq_mul] at hnonneg hless ⊢
  have hlow : (0 : ℚ) ≤ count := nonneg_of_mul_nonneg_left hnonneg hunit
  have hhigh : (count : ℚ) < 1 := by
    rwa [mul_lt_iff_lt_one_left hunit] at hless
  have hcount : count = 0 := by
    have hlow' : 0 ≤ count := by exact_mod_cast hlow
    have hhigh' : count < 1 := by exact_mod_cast hhigh
    omega
  rw [hcount, Int.cast_zero, zero_mul]

theorem total_eq_sum (costs : List ℚ) : total costs = costs.sum :=
  List.sum_eq_foldl.symm

theorem total_toList {size : Nat} (costs : Vector ℚ size) :
    total costs.toList = ∑ index, costs.get index := by
  rw [total_eq_sum, toList_eq_ofFn_get, List.sum_ofFn]

end CostArithmetic

end Hungarian
