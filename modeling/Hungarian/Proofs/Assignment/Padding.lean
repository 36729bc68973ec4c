import Hungarian.Proofs.Assignment.Certificate
import Hungarian.Proofs.Problem.Counted

/-!
# What a certificate proves of a padded matrix

A certificate compares the potentials with the caller's cells and with the matched ones, and with no
other cell of the padding. So padding may cost less than its potentials, and a certified matching
more than one that leaves other rows or columns to padding. What the certificate does prove are two
bounds: one for all permutations, with what their padding falls short of being feasible, and one
without it for those that leave the same rows and columns to padding, since all padding costs the
same.
-/

namespace Hungarian

section Duality

variable {size : Nat} {problem : Problem ℚ size} {potentials : Potentials ℚ size}
  {σ τ : Equiv.Perm (Fin size)}

/-- Two permutations that leave the same rows and the same columns to padding. -/
structure Problem.PadsAlike (problem : Problem ℚ size) (σ τ : Equiv.Perm (Fin size)) : Prop where
  rows_eq : problem.paddedRows σ = problem.paddedRows τ
  cols_eq : (problem.paddedRows σ).map σ.toEmbedding = (problem.paddedRows τ).map τ.toEmbedding

theorem Problem.sum_paddedRows_add_sum_innerRows (problem : Problem ℚ size)
    (σ : Equiv.Perm (Fin size)) (f : Fin size → ℚ) :
    ∑ row ∈ problem.paddedRows σ, f row + ∑ row ∈ problem.innerRows σ, f row = ∑ row, f row := by
  rw [paddedRows, innerRows, ← Finset.sum_filter_add_sum_filter_not Finset.univ
    fun row => problem.isPadding row (σ row) = true]
  simp only [Bool.not_eq_true]

namespace Potentials

def shortfall (problem : Problem ℚ size) (potentials : Potentials ℚ size)
    (row col : Fin size) : ℚ :=
  max 0 (-potentials.allowance problem row col - potentials.reducedCost problem row col)

/-- Padding costs the same all over, so that only its rows and columns count. -/
theorem sum_paddedRows_reducedCost_eq (h : problem.PadsAlike σ τ) {pad : ℚ}
    (hpad : ∀ row col, problem.isPadding row col = true → problem.cost row col = pad) :
    ∑ row ∈ problem.paddedRows σ, potentials.reducedCost problem row (σ row) =
      ∑ row ∈ problem.paddedRows τ, potentials.reducedCost problem row (τ row) := by
  have hsum : ∀ ρ : Equiv.Perm (Fin size),
      ∑ row ∈ problem.paddedRows ρ, potentials.reducedCost problem row (ρ row) =
        ∑ row ∈ problem.paddedRows ρ, (pad - potentials.rows.get row) -
          ∑ col ∈ (problem.paddedRows ρ).map ρ.toEmbedding, potentials.cols.get col := by
    intro ρ
    rw [Finset.sum_map, ← Finset.sum_sub_distrib]
    apply Finset.sum_congr rfl
    intro row hrow
    rw [reducedCost_eq, hpad row (ρ row) (Problem.mem_paddedRows_iff.mp hrow)]
    rfl
  rw [hsum σ, hsum τ, h.cols_eq, h.rows_eq]

section Bounds

variable (hmatched : ∀ row,
    potentials.reducedCost problem row (σ row) ≤ potentials.allowance problem row (σ row))
  (hinner : ∀ row, problem.isPadding row (τ row) = false →
    -potentials.allowance problem row (τ row) ≤ potentials.reducedCost problem row (τ row))

include hmatched hinner

/-- The certificate leaves padding out, and what padding lacks comes on top. -/
theorem totalCost_le_add_shortfall : problem.totalCost σ ≤ problem.totalCost τ +
    ∑ row, potentials.allowance problem row (σ row) +
    ∑ row, potentials.allowance problem row (τ row) +
    ∑ row ∈ problem.paddedRows τ, potentials.shortfall problem row (τ row) := by
  have hother : ∀ row, -(potentials.allowance problem row (τ row) +
      if problem.isPadding row (τ row) = true then potentials.shortfall problem row (τ row)
        else 0) ≤ potentials.reducedCost problem row (τ row) := by
    intro row
    split
    · have hshort := le_max_right 0 (-potentials.allowance problem row (τ row) -
        potentials.reducedCost problem row (τ row))
      rw [shortfall]
      linarith
    · next hpadding =>
        rw [add_zero]
        exact hinner row (Bool.eq_false_of_not_eq_true hpadding)
  have hle := totalCost_le_totalCost_add hmatched hother
  rwa [Finset.sum_add_distrib, ← Finset.sum_filter, ← add_assoc] at hle

theorem totalCost_le_of_padsAlike (h : problem.PadsAlike σ τ) {pad : ℚ}
    (hpad : ∀ row col, problem.isPadding row col = true → problem.cost row col = pad)
    (hnonneg : 0 ≤ problem.epsilon) : problem.totalCost σ ≤ problem.totalCost τ +
      ∑ row, potentials.allowance problem row (σ row) +
      ∑ row, potentials.allowance problem row (τ row) := by
  have hallowance : ∀ row col, 0 ≤ potentials.allowance problem row col :=
    fun row col => hnonneg.trans epsilon_le_allowance
  have hσ : ∑ row ∈ problem.innerRows σ, potentials.reducedCost problem row (σ row) ≤
      ∑ row, potentials.allowance problem row (σ row) :=
    calc ∑ row ∈ problem.innerRows σ, potentials.reducedCost problem row (σ row)
        ≤ ∑ row ∈ problem.innerRows σ, potentials.allowance problem row (σ row) :=
          Finset.sum_le_sum fun row _ => hmatched row
      _ ≤ ∑ row, potentials.allowance problem row (σ row) :=
          Finset.sum_le_univ_sum_of_nonneg fun row => hallowance row (σ row)
  have hτ : -∑ row, potentials.allowance problem row (τ row) ≤
      ∑ row ∈ problem.innerRows τ, potentials.reducedCost problem row (τ row) :=
    calc -∑ row, potentials.allowance problem row (τ row)
        ≤ -∑ row ∈ problem.innerRows τ, potentials.allowance problem row (τ row) :=
          neg_le_neg (Finset.sum_le_univ_sum_of_nonneg fun row => hallowance row (τ row))
      _ = ∑ row ∈ problem.innerRows τ, -potentials.allowance problem row (τ row) :=
          (Finset.sum_neg_distrib _).symm
      _ ≤ ∑ row ∈ problem.innerRows τ, potentials.reducedCost problem row (τ row) :=
          Finset.sum_le_sum fun row hrow => hinner row (Problem.mem_innerRows_iff.mp hrow)
  -- what the padding costs beyond its potentials is the same for both
  rw [totalCost_eq_dualObjective_add potentials, totalCost_eq_dualObjective_add potentials,
    ← problem.sum_paddedRows_add_sum_innerRows σ, ← problem.sum_paddedRows_add_sum_innerRows τ,
    sum_paddedRows_reducedCost_eq h hpad]
  linarith

end Bounds

end Potentials

end Duality

namespace Solution

variable {matrix : CostMatrix ℚ} {options : Options ℚ} {problem : Problem ℚ matrix.side}
  {solution : Solution ℚ matrix.side}

/-- **Soundness of the certificate, with padding.** Whatever the potentials, an answer that is
called optimal shows a permutation of cells none of which is forbidden. No other such permutation is
cheaper by more than the allowances of the cells of both and what its padding falls short of being
feasible, or by more than the allowances alone if it leaves the same rows and columns to padding. -/
theorem totalCost_le_add_shortfall_of_isOptimal (hshaped : matrix.WellShaped)
    (hproblem : Problem.normalize matrix options = .ok problem)
    (hconsistent : solution.matching.Consistent) :
    ∃ assignment, solution.extract matrix problem = .ok assignment ∧
      (assignment.isOptimal = true → ∃ σ, solution.matching.Realizes σ ∧
        (∀ row : Fin matrix.side, options.disallowed.contains row (σ row) = false) ∧
        ∀ τ : Equiv.Perm (Fin matrix.side),
          (∀ row : Fin matrix.side, options.disallowed.contains row (τ row) = false) →
          problem.totalCost σ ≤ problem.totalCost τ +
            ∑ row, solution.potentials.allowance problem row (σ row) +
            ∑ row, solution.potentials.allowance problem row (τ row) +
            ∑ row ∈ problem.paddedRows τ, solution.potentials.shortfall problem row (τ row) ∧
          (problem.PadsAlike σ τ → problem.totalCost σ ≤ problem.totalCost τ +
            ∑ row, solution.potentials.allowance problem row (σ row) +
            ∑ row, solution.potentials.allowance problem row (τ row))) := by
  have haccepts := Problem.accepts_of_normalize hshaped hproblem
  have hrepresents := Problem.represents_of_normalize haccepts hproblem
  have hframes := hrepresents.frames
  obtain ⟨assignment, hextract⟩ := exists_extract_eq_ok hshaped hframes solution
  refine ⟨assignment, hextract, fun hoptimal => ?_⟩
  obtain ⟨cost, -, rfl⟩ := extract_eq_ok_iff.mp hextract
  obtain ⟨hstripped, hcertified⟩ := isOptimal_toAssignment_iff.mp hoptimal
  obtain ⟨σ, hσ⟩ := hconsistent.exists_realizes (isCertified_iff.mp hcertified).2.2
  have hmatched := reducedCost_le_of_isCertified hσ hcertified
  refine ⟨σ, hσ, fun row => ?_, fun τ hτ => ?_⟩
  · rw [← hframes.isForbidden_eq]
    exact isForbidden_eq_false_of_stripped_eq_nil hrepresents.forbidden_inside hσ hstripped row
  · have hinner : ∀ row, problem.isPadding row (τ row) = false →
        -solution.potentials.allowance problem row (τ row) ≤
          solution.potentials.reducedCost problem row (τ row) := by
      intro row hpadding
      apply le_reducedCost_of_isCertified hcertified
      rw [Problem.isAllowed_iff, hframes.isForbidden_eq]
      exact ⟨hpadding, hτ row⟩
    have hnonneg : 0 ≤ problem.epsilon := hframes.epsilon_eq ▸ haccepts.tolerance_nonneg
    exact ⟨Potentials.totalCost_le_add_shortfall hmatched hinner, fun halike =>
      Potentials.totalCost_le_of_padsAlike hmatched hinner halike
        (fun row col => Problem.cost_eq_of_isPadding haccepts hproblem) hnonneg⟩

end Solution

def detour : CostMatrix ℚ where
  data := #[0, 10]
  rows := 1
  cols := 2

def detourOptions : Options ℚ where
  maximize := false
  disallowed := .empty
  padValue := 0
  tolerance := 0

def detourPairs : Equiv.Perm (Fin 2) :=
  Equiv.swap 0 1

def detourSolution : Solution ℚ 2 where
  matching := {
    cols := .ofFn fun row => some (detourPairs row)
    rows := .ofFn fun col => some (detourPairs.symm col) }
  potentials := {
    rows := #v[10, 10]
    cols := #v[-10, 0] }

theorem realizes_detourSolution : detourSolution.matching.Realizes detourPairs where
  colOf_eq := get_ofFn _
  rowOf_eq := get_ofFn _

/-- An answer with infeasible padding is certified. -/
theorem exists_extract_detour : ∃ (problem : Problem ℚ detour.side) (assignment : Assignment ℚ),
    Problem.normalize detour detourOptions = .ok problem ∧
    Solution.extract detour problem detourSolution = .ok assignment ∧
    assignment.isOptimal = true ∧
    detourSolution.potentials =
      (Potentials.initial problem).tighten 10 #v[true, true] #v[true, false] ∧
    problem.totalCost (Equiv.refl _) +
      ∑ row, detourSolution.potentials.allowance problem row (detourPairs row) +
      ∑ row, detourSolution.potentials.allowance problem row row <
        problem.totalCost detourPairs := by
  have hrun : (Problem.normalize detour detourOptions).toOption.any (fun problem =>
      (Solution.extract detour problem detourSolution).toOption.any (fun assignment =>
        assignment.isOptimal) ∧
      detourSolution.potentials =
        (Potentials.initial problem).tighten 10 #v[true, true] #v[true, false] ∧
      problem.totalCost (Equiv.refl _) +
        ∑ row, detourSolution.potentials.allowance problem row (detourPairs row) +
        ∑ row, detourSolution.potentials.allowance problem row row <
          problem.totalCost detourPairs) = true := by
    decide +kernel
  obtain ⟨problem, hproblem, hrest⟩ := exists_ok_of_any hrun
  obtain ⟨hextract, hpotentials, htotal⟩ := of_decide_eq_true hrest
  obtain ⟨assignment, hassignment, hoptimal⟩ := exists_ok_of_any hextract
  exact ⟨problem, assignment, hproblem, hassignment, hoptimal, hpotentials, htotal⟩

/-- The bound counts what the padding below the first task lacks. -/
theorem totalCost_le_add_shortfall_detour : detour.WellShaped ∧
    detourSolution.matching.Consistent ∧
    ∃ (problem : Problem ℚ detour.side) (assignment : Assignment ℚ),
      Problem.normalize detour detourOptions = .ok problem ∧
      Solution.extract detour problem detourSolution = .ok assignment ∧
      assignment.isOptimal = true ∧
      ∃ σ, detourSolution.matching.Realizes σ ∧
        (∀ row : Fin detour.side, detourOptions.disallowed.contains row (σ row) = false) ∧
        ∀ τ : Equiv.Perm (Fin detour.side),
          (∀ row : Fin detour.side, detourOptions.disallowed.contains row (τ row) = false) →
          problem.totalCost σ ≤ problem.totalCost τ +
            ∑ row, detourSolution.potentials.allowance problem row (σ row) +
            ∑ row, detourSolution.potentials.allowance problem row (τ row) +
            ∑ row ∈ problem.paddedRows τ, detourSolution.potentials.shortfall problem row (τ row) ∧
          (problem.PadsAlike σ τ → problem.totalCost σ ≤ problem.totalCost τ +
            ∑ row, detourSolution.potentials.allowance problem row (σ row) +
            ∑ row, detourSolution.potentials.allowance problem row (τ row)) := by
  obtain ⟨problem, assignment, hproblem, hassignment, hoptimal, -⟩ := exists_extract_detour
  obtain ⟨answer, hanswer, hsound⟩ := Solution.totalCost_le_add_shortfall_of_isOptimal
    (by decide) hproblem realizes_detourSolution.consistent
  obtain rfl : answer = assignment := Except.ok.inj (hanswer.symm.trans hassignment)
  exact ⟨by decide, realizes_detourSolution.consistent, problem, answer, hproblem, hanswer,
    hoptimal, hsound hoptimal⟩

/-- A move of the initial potentials has the second task certified, which costs 10 more than the
first. -/
theorem totalCost_add_lt_detour : detour.rows ≠ detour.cols ∧
    detourSolution.matching.Consistent ∧
    ∃ (problem : Problem ℚ detour.side) (assignment : Assignment ℚ)
      (σ τ : Equiv.Perm (Fin detour.side)),
      Problem.normalize detour detourOptions = .ok problem ∧
      detourSolution.potentials =
        (Potentials.initial problem).tighten 10 #v[true, true] #v[true, false] ∧
      Solution.extract detour problem detourSolution = .ok assignment ∧
      assignment.isOptimal = true ∧ detourSolution.matching.Realizes σ ∧
      (∀ row : Fin detour.side, detourOptions.disallowed.contains row (τ row) = false) ∧
      problem.totalCost τ +
        ∑ row, detourSolution.potentials.allowance problem row (σ row) +
        ∑ row, detourSolution.potentials.allowance problem row (τ row) <
          problem.totalCost σ := by
  obtain ⟨problem, assignment, hproblem, hassignment, hoptimal, hpotentials, htotal⟩ :=
    exists_extract_detour
  exact ⟨by decide, realizes_detourSolution.consistent, problem, assignment, detourPairs,
    Equiv.refl _, hproblem, hpotentials, hassignment, hoptimal, realizes_detourSolution, by decide,
    htotal⟩

end Hungarian
