import Hungarian.Problem.Normalize
import Hungarian.Proofs.Double.Signs
import Hungarian.Proofs.Potentials.Reduced

/-!
# Tight cells at the start, in double precision

Numbers of 64 bits order their differences, so that rounding costs the initial potentials neither
feasibility nor a tight cell. Only a difference that overflows does.
-/

namespace Hungarian

open CostArithmetic

instance : OrdersDifferences Float where
  le_trans _ _ _ := Double.le_trans_of_le
  least _ hne hfinite := Double.least?_mem_and_le hne fun cost hcost =>
    Double.kind_ne_notANumber (hfinite cost hcost)
  isFinite_of_sub _ _ := Double.isFinite_of_sub
  sub_nonneg _ _ := Double.sub_nonneg_of_le
  sub_nonpos _ _ := Double.sub_nonpos_of_le

namespace Potentials

/-- **Row and column reduction.** The initial potentials of every problem are feasible, and leave a
reduced cost of zero in every row and in every column: over exact numbers always, and in double
precision whenever no cost less the potential of its row overflows, however these differences are
rounded. -/
theorem reduces_initial_exact_and_double :
    (∀ {size : Nat} (problem : Problem ℚ size), (initial problem).Reduces (· = 0) problem) ∧
    ∀ {size : Nat} (problem : Problem Float size),
      (∀ row col, (problem.cost row col - (initial problem).rows.get row).isFinite = true) →
      (initial problem).Reduces (· == 0) problem := by
  constructor
  · intro size problem
    exact (fitsRows_exact problem).reduces_initial fun x hnonneg hnonpos =>
      le_antisymm hnonpos hnonneg
  · intro size problem hfits
    exact FitsRows.reduces_initial (show FitsRows problem from hfits) fun x hnonneg hnonpos =>
      Double.beq_of_le_of_le hnonpos hnonneg

def uneven : CostMatrix Float where
  data := #[1e16, 0.1, 0.7, 3, -2.5, 1e15, 0.3, 0.2, 0.1]
  rows := 3
  cols := 3

/-- What the first cell costs beyond its row is rounded to the cost itself. -/
theorem reduces_initial_uneven : ∃ problem, Problem.normalize uneven .standard = .ok problem ∧
    FitsRows problem ∧ (initial problem).rows.toList = [0.1, -2.5, 0.1] ∧
    (initial problem).cols.toList = [0.3 - 0.1, 0, 0] ∧
    (initial problem).Reduces (· == 0) problem := by
  have hchecked : (Problem.normalize uneven .standard).toOption.any (fun problem =>
      decide (FitsRows problem ∧ (initial problem).rows.toList = [0.1, -2.5, 0.1] ∧
        (initial problem).cols.toList = [0.3 - 0.1, 0, 0])) = true := by decide +kernel
  obtain ⟨problem, hproblem, htest⟩ := exists_ok_of_any hchecked
  obtain ⟨hfits, hrows, hcols⟩ := of_decide_eq_true htest
  exact ⟨problem, hproblem, hfits, hrows, hcols, reduces_initial_exact_and_double.2 problem hfits⟩

end Potentials

end Hungarian
