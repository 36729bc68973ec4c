import Hungarian.Proofs.Integral.Certificate
import Hungarian.Proofs.Integral.Normalize

/-!
# Answers to whole costs in double precision

As long as a matrix of whole numbers is small enough for its size, a solve in double precision rounds
nothing: it goes through the same searches as a solve over exact numbers, and its answer is the
exact one. The costs have to be written without negative zeros: these come before zero in the order
in which slacks are taken, so that a search may find another path.
-/

namespace Hungarian

open CostArithmetic

namespace CostMatrix

/-- Whole costs up to a bound, of which as many as there are potentials add up to 53 bits even when
they are sentinels. -/
structure FitsDouble (entries : CostMatrix ℤ) (options : Options ℤ) (bound : Nat) : Prop where
  wellShaped : entries.WellShaped
  rows_pos : 0 < entries.rows
  cols_pos : 0 < entries.cols
  inside : ∀ pair ∈ options.disallowed.toList, pair.1 < entries.rows ∧ pair.2 < entries.cols
  data_le : ∀ cost ∈ entries.data, |cost| ≤ bound
  padValue_le : |options.padValue| ≤ bound
  bound_le : 2 * entries.side * (2 * (entries.side + 1) * bound + 1) ≤ 2 ^ 53

variable {entries : CostMatrix ℤ} {options : Options ℤ} {bound : Nat} {tolerance : Float} {epsilon : ℚ}

namespace FitsDouble

variable (h : entries.FitsDouble options bound)

include h

theorem side_le : entries.side ≤ 2 ^ 53 := by
  have hbound := h.bound_le
  nlinarith [Nat.zero_le (2 * (entries.side + 1) * bound)]

theorem bound_le_two_pow : bound ≤ 2 ^ 53 := by
  have hside : 1 ≤ entries.side := h.rows_pos.trans_le (le_max_left _ _)
  have hbound := h.bound_le
  have hle : 2 * 1 * (2 * (0 + 1) * bound + 1) ≤
      2 * entries.side * (2 * (entries.side + 1) * bound + 1) := by
    gcongr
    omega
  omega

theorem stores_of_abs_le {cost : ℤ} (hcost : |cost| ≤ bound) :
    Double.Stores (Float.ofInt cost) cost := by
  have hbound := h.bound_le_two_pow
  exact Double.stores_ofInt (hcost.trans (by exact_mod_cast hbound))

theorem isIntegral (hnonneg : 0 ≤ epsilon) (hless : epsilon < 1) :
    (entries.map (Int.cast : ℤ → ℚ)).IsIntegral (options.map Int.cast epsilon) bound where
  wellShaped := wellShaped_map h.wellShaped
  rows_pos := h.rows_pos
  cols_pos := h.cols_pos
  inside := h.inside
  tolerance_nonneg := hnonneg
  isCount_data := by
    intro cost hcost
    obtain ⟨entry, hentry, rfl⟩ := Array.mem_map.mp hcost
    exact ⟨entry, rfl, h.data_le entry hentry⟩
  isCount_padValue := ⟨options.padValue, rfl, h.padValue_le⟩
  bound_le := h.bound_le
  tolerance_lt_one := hless

theorem isValid (hfinite : tolerance.isFinite = true) (hnonneg : 0 ≤ Double.value tolerance) :
    (entries.map Float.ofInt).IsValid (options.map Float.ofInt tolerance) where
  wellShaped := wellShaped_map h.wellShaped
  rows_pos := h.rows_pos
  cols_pos := h.cols_pos
  inside := h.inside
  data_isFinite := by
    intro cost hcost
    obtain ⟨entry, hentry, rfl⟩ := Array.mem_map.mp hcost
    exact (h.stores_of_abs_le (h.data_le entry hentry)).denotes.isFinite
  padValue_isFinite := (h.stores_of_abs_le h.padValue_le).denotes.isFinite
  tolerance_isFinite := hfinite
  tolerance_nonneg := by
    change ¬tolerance < 0
    rw [Double.lt_iff_value hfinite Double.denotes_zero.isFinite, Double.denotes_zero.value_eq]
    exact not_lt.mpr hnonneg

theorem stores_gridCost (row col : Nat) :
    Double.Stores (Float.ofInt (entries.gridCost options.padValue row col))
      (entries.gridCost options.padValue row col : ℤ) := by
  apply h.stores_of_abs_le
  by_cases hinside : row < entries.rows ∧ col < entries.cols
  · have hget := get?_eq_some_gridCost h.wellShaped options.padValue hinside.1 hinside.2
    exact h.data_le _ (Array.mem_of_getElem? hget)
  · rw [gridCost_of_outside hinside]
    exact h.padValue_le

/-- The problem in double precision is the exact one. -/
theorem exists_normalize_stores (hfinite : tolerance.isFinite = true)
    (hnonneg : 0 ≤ Double.value tolerance) (hless : Double.value tolerance < 1)
    (hnonneg' : 0 ≤ epsilon) (hless' : epsilon < 1) :
    ∃ (double : Problem Float entries.side) (problem : Problem ℚ entries.side),
      Problem.normalize (entries.map Float.ofInt) (options.map Float.ofInt tolerance) =
        .ok double ∧
      Problem.normalize (entries.map Int.cast) (options.map Int.cast epsilon) = .ok problem ∧
      double.Stores problem := by
  have hintegral := h.isIntegral hnonneg' hless'
  have hpadded := padded_map_eq_ok (f := Float.ofInt) h.wellShaped options.padValue
  have hpadded' := padded_map_eq_ok (f := (Int.cast : ℤ → ℚ)) h.wellShaped options.padValue
  have hmaximize : (options.map Float.ofInt tolerance).maximize =
      (options.map (Int.cast : ℤ → ℚ) epsilon).maximize := rfl
  have hstores := Problem.stores_transformed
    (fun row col => by
      rw [Square.get_ofFn, Square.get_ofFn]
      exact h.stores_gridCost row col) hmaximize (hintegral.isSmall_transformed hpadded')
  obtain ⟨problem, hproblem⟩ := Problem.exists_normalize_eq_ok hintegral.toAccepts
  obtain ⟨padded, hpadded'', hsquare⟩ := Problem.exists_ofSquare_of_normalize hproblem
  obtain rfl := Except.ok.inj (hpadded''.symm.trans hpadded')
  obtain ⟨double, hdouble, hstored⟩ := Problem.exists_ofSquare_stores hstores h.side_le
    (fun number => hintegral.isSmall_of_prices hpadded') hfinite hnonneg hless hsquare
  refine ⟨double, problem, ?_, hproblem, hstored⟩
  rw [(h.isValid hfinite hnonneg).normalize_eq hpadded]
  exact congrArg (Except.mapError Failure.refused) hdouble

end FitsDouble

end CostMatrix

namespace Assignment

def map {α β : Type} (f : α → β) (assignment : Assignment α) : Assignment β where
  cols := assignment.cols
  rows := assignment.rows
  isOptimal := assignment.isOptimal
  cost := f assignment.cost
  stripped := assignment.stripped
  dualBound := f assignment.dualBound

end Assignment

namespace RowSearch

def map {α β : Type} {size : Nat} (f : α → β) (search : RowSearch α size) : RowSearch β size where
  row := search.row
  deltas := search.deltas.map f
  path := search.path

end RowSearch

section Counts

variable {size : Nat}

theorem exists_map_of_stores {numbers : List Float} {exact : List ℚ}
    (h : List.Forall₂ Double.Stores numbers exact) :
    ∃ counts : List ℤ, numbers = counts.map Float.ofInt ∧ exact = counts.map Int.cast := by
  induction h with
  | nil => exact ⟨[], rfl, rfl⟩
  | cons hfirst _ ih =>
      obtain ⟨counts, hnumbers, hexact⟩ := ih
      obtain ⟨count, hcount, -⟩ := hfirst.isSmall
      refine ⟨count :: counts, ?_, ?_⟩
      · rw [List.map_cons, hfirst.eq_ofInt hcount, hnumbers]
      · rw [List.map_cons, hcount, hexact]

/-- Two runs with the same moves have them in whole numbers. -/
theorem exists_map_of_mirrors {searches : List (RowSearch Float size)}
    {exact : List (RowSearch ℚ size)}
    (h : List.Forall₂ (RowSearch.Mirrors Double.Stores) searches exact) :
    ∃ counts : List (RowSearch ℤ size), searches = counts.map (RowSearch.map Float.ofInt) ∧
      exact = counts.map (RowSearch.map Int.cast) := by
  induction h with
  | nil => exact ⟨[], rfl, rfl⟩
  | @cons search exact _ _ hfirst _ ih =>
      obtain ⟨counts, hsearches, hexact⟩ := ih
      obtain ⟨deltas, hdeltas, hdeltas'⟩ := exists_map_of_stores hfirst.deltas
      refine ⟨{ row := search.row, deltas, path := search.path } :: counts, ?_, ?_⟩
      · rw [List.map_cons, ← hsearches, RowSearch.map, ← hdeltas]
      · rw [List.map_cons, ← hexact, RowSearch.map, ← hdeltas', hfirst.row_eq, hfirst.path_eq]

end Counts

theorem Problem.Stores.sameLayout {size : Nat} {double : Problem Float size}
    {problem : Problem ℚ size} (h : double.Stores problem) : double.SameLayout problem :=
  ⟨h.rows_eq, h.cols_eq, h.forbidden_eq⟩

namespace Solution

variable {size : Nat} {double : Problem Float size} {problem : Problem ℚ size} {low spread : ℤ}
  {solution : Solution Float size} {exact : Solution ℚ size}

section Cells

variable (h : double.Stores problem) (hmatching : solution.matching = exact.matching)

include h hmatching

/-- Two answers with certificates that hold. -/
theorem exists_toAssignment_map {cost : Float} {cost' : ℚ} (hcost : Double.Stores cost cost')
    (hdual : Double.Stores solution.potentials.dualObjective exact.potentials.dualObjective)
    (hcertified : solution.isCertified double = true)
    (hcertified' : exact.isCertified problem = true) :
    ∃ assignment : Assignment ℤ,
      solution.toAssignment double cost = assignment.map Float.ofInt ∧
      exact.toAssignment problem cost' = assignment.map Int.cast := by
  obtain ⟨count, hcount, -⟩ := hcost.isSmall
  obtain ⟨bound, hbound, -⟩ := hdual.isSmall
  have hexact : exact.toAssignment problem cost' =
      Assignment.map Int.cast { exact.toAssignment problem cost' with
        cost := count, dualBound := bound } := by
    rw [Assignment.map, toAssignment, hcount, hbound]
  refine ⟨_, ?_, hexact⟩
  rw [Assignment.map, toAssignment, toAssignment, kept_eq_of_sameLayout h.sameLayout hmatching,
    stripped_eq_of_sameLayout h.sameLayout hmatching, h.rows_eq, h.cols_eq, hcertified, hcertified',
    hcost.eq_ofInt hcount, hdual.eq_ofInt hbound]

end Cells

/-- The dual objective is summed without rounding. -/
theorem stores_dualObjective (hproblem : problem.IsIntegral low spread)
    {potentials : Potentials Float size} {exact : Potentials ℚ size}
    (h : potentials.Stores problem low spread exact) :
    Double.Stores potentials.dualObjective exact.dualObjective := by
  have hrows := Double.stores_total (forall₂_toList h.rows)
    (h.isIntegral.isSmall_total_rows hproblem)
  have hcols := Double.stores_total (forall₂_toList h.cols)
    (h.isIntegral.isSmall_total_cols hproblem)
  exact hrows.add hcols (h.isIntegral.isSmall_dualObjective hproblem)

end Solution

section Run

variable {entries : CostMatrix ℤ} {options : Options ℤ} {bound : Nat} {tolerance : Float}
  {epsilon : ℚ}

/-- Costs of cells add up to the same whole number, as long as the sums on the way are small. -/
theorem CostMatrix.FitsDouble.exists_costOf_stores (h : entries.FitsDouble options bound)
    {size : Nat} {cells : List (Fin size × Fin size)}
    (hinside : ∀ cell ∈ cells, cell.1 < entries.rows ∧ cell.2 < entries.cols)
    (hsums : ∀ count sum, Solution.costOf (entries.map (Int.cast : ℤ → ℚ)) (cells.take count) =
      .ok sum → IsSmall sum) :
    ∃ (cost : Float) (cost' : ℚ), Double.Stores cost cost' ∧
      Solution.costOf (entries.map Float.ofInt) cells = .ok cost ∧
      Solution.costOf (entries.map (Int.cast : ℤ → ℚ)) cells = .ok cost' := by
  let entry := fun cell : Fin size × Fin size => (entries.get? cell.1 cell.2).getD 0
  have hget : ∀ cell ∈ cells, entries.get? cell.1 cell.2 = some (entry cell) := by
    intro cell hcell
    obtain ⟨hrow, hcol⟩ := hinside cell hcell
    have hlt := CostMatrix.offset_lt_size h.wellShaped hrow hcol
    have hsome : entries.get? cell.1 cell.2 = some entries.data[entries.offset cell.1 cell.2] :=
      Array.getElem?_eq_getElem hlt
    dsimp only [entry]
    rw [hsome, Option.getD_some]
  have hgetDouble : ∀ cell ∈ cells,
      (entries.map Float.ofInt).get? cell.1 cell.2 = some (Float.ofInt (entry cell)) := by
    intro cell hcell
    rw [CostMatrix.get?_map, hget cell hcell, Option.map_some]
  have hgetExact : ∀ cell ∈ cells,
      (entries.map (Int.cast : ℤ → ℚ)).get? cell.1 cell.2 = some (entry cell : ℚ) := by
    intro cell hcell
    rw [CostMatrix.get?_map, hget cell hcell, Option.map_some]
  refine ⟨_, _, Double.stores_total ?_ fun count => hsums count _ ?_,
    Solution.costOf_eq hgetDouble, Solution.costOf_eq hgetExact⟩
  · rw [List.forall₂_map_left_iff, List.forall₂_map_right_iff, List.forall₂_same]
    intro cell hcell
    exact h.stores_of_abs_le (h.data_le _ (Array.mem_of_getElem? (hget cell hcell)))
  · rw [← List.map_take]
    exact Solution.costOf_eq fun cell hcell => hgetExact cell (List.mem_of_mem_take hcell)

/-- From the same last stages come the same answers. -/
theorem CostMatrix.FitsDouble.exists_extract_map (h : entries.FitsDouble options bound)
    (hnonneg : 0 ≤ epsilon) (hless : epsilon < 1) {double : Problem Float entries.side}
    {problem : Problem ℚ entries.side} {low spread : ℤ} {stage' : Stage Float entries.side}
    {stage : Stage ℚ entries.side} {count : Nat} {σ : Equiv.Perm (Fin entries.side)}
    (hframes : problem.Frames (entries.map (Int.cast : ℤ → ℚ)) (options.map Int.cast epsilon))
    (hstores : double.Stores problem) (hproblem : problem.IsIntegral low spread)
    (hmirrors : stage'.Mirrors Double.Stores (Potentials.Stores problem low spread) stage)
    (hbalanced : stage.Balanced problem count) (hσ : stage.matching.Realizes σ) :
    ∃ assignment : Assignment ℤ,
      stage'.solution.extract (entries.map Float.ofInt) double =
        .ok (assignment.map Float.ofInt) ∧
      stage.solution.extract (entries.map (Int.cast : ℤ → ℚ)) problem =
        .ok (assignment.map Int.cast) := by
  have hmatching : stage'.solution.matching = stage.solution.matching := hmirrors.matching_eq
  have hcertified' : stage.solution.isCertified problem = true :=
    Solution.isCertified_of_supports hproblem.epsilon_nonneg hσ hbalanced.supports
  have hcertified : stage'.solution.isCertified double = true := by
    apply Solution.isCertified_of_stores hstores hproblem hmirrors.potentials
    · rw [hmatching]
      exact hbalanced.supports
    · rw [hmatching]
      exact hσ.count_eq
  obtain ⟨cost, cost', hcost, hcostOf, hcostOf'⟩ :=
    h.exists_costOf_stores
      (fun cell (hcell : cell ∈ stage.solution.kept problem) =>
        Solution.inside_of_mem_kept hframes hcell)
      fun count sum hsum => (h.isIntegral hnonneg hless).isSmall_of_costOf_take hframes hsum
  obtain ⟨assignment, hassignment, hassignment'⟩ := Solution.exists_toAssignment_map hstores
    hmatching hcost (Solution.stores_dualObjective hproblem hmirrors.potentials) hcertified
    hcertified'
  rw [← Solution.kept_eq_of_sameLayout hstores.sameLayout hmatching] at hcostOf
  exact ⟨assignment, Solution.extract_eq_ok_iff.mpr ⟨cost, hcostOf, hassignment⟩,
    Solution.extract_eq_ok_iff.mpr ⟨cost', hcostOf', hassignment'⟩⟩

/-- The two solves go through the same searches to the same answer. -/
theorem CostMatrix.FitsDouble.exists_runs (h : entries.FitsDouble options bound)
    (hnonneg : 0 ≤ tolerance) (hless : tolerance < 1) (hnonneg' : 0 ≤ epsilon)
    (hless' : epsilon < 1) :
    ∃ (searches : List (RowSearch ℤ entries.side)) (assignment : Assignment ℤ),
      Runs (entries.map (Int.cast : ℤ → ℚ)) (options.map Int.cast epsilon)
        (searches.map (RowSearch.map Int.cast)) (assignment.map Int.cast) ∧
      Runs (entries.map Float.ofInt) (options.map Float.ofInt tolerance)
        (searches.map (RowSearch.map Float.ofInt)) (assignment.map Float.ofInt) := by
  have hmatrix := h.isIntegral hnonneg' hless'
  have hone := Double.stores_one.denotes
  have hfinite := Double.isFinite_of_le_of_le Double.denotes_zero.isFinite hone.isFinite hnonneg
    (Double.le_of_lt hless)
  rw [Double.le_iff_value Double.denotes_zero.isFinite hfinite, Double.denotes_zero.value_eq]
    at hnonneg
  rw [Double.lt_iff_value hfinite hone.isFinite, hone.value_eq] at hless
  obtain ⟨double, problem, hdouble, hproblem, hstores⟩ :=
    h.exists_normalize_stores hfinite hnonneg hless hnonneg' hless'
  have hintegral := hmatrix.isIntegral_of_normalize hproblem
  obtain ⟨stage, hfinal, hbalanced⟩ := Stage.exists_final_eq_ok hintegral.epsilon_nonneg
  obtain ⟨stage', hfinal', hmirrors⟩ := (hstores.simulates hintegral).exists_final_mirrors hfinal
  obtain ⟨σ, hσ⟩ := Stage.exists_realizes_of_final hfinal
  obtain ⟨searches, hsearches', hsearches⟩ := exists_map_of_mirrors hmirrors.searches
  obtain ⟨assignment, hextract', hextract⟩ := h.exists_extract_map hnonneg' hless'
    (Problem.frames_of_normalize hproblem) hstores hintegral hmirrors hbalanced hσ
  refine ⟨searches, assignment, ⟨problem, stage, hproblem, hfinal, hsearches, ?_⟩,
    double, stage', hdouble, hfinal', hsearches', ?_⟩
  · exact solve_eq_ok_iff.mpr ⟨problem, stage, hproblem, hfinal, hextract⟩
  · exact solve_eq_ok_iff.mpr ⟨double, stage', hdouble, hfinal', hextract'⟩

/-- **No rounding on whole costs.** Where as many sentinels as there are potentials add up to 53
bits, every number of an exact solve is whole and has 53 bits. No cost being a negative zero, a solve
in double precision goes through the same searches to the same answer, and finds it in memory where
there is room for the square. -/
theorem solve_of_fitsDouble (h : entries.FitsDouble options bound) (hnonneg : 0 ≤ tolerance)
    (hless : tolerance < 1) (hnonneg' : 0 ≤ epsilon) (hless' : epsilon < 1) :
    (∀ number, Computes (entries.map Int.cast) (options.map Int.cast epsilon) number →
      ∃ count : ℤ, number = count ∧ |count| ≤ 2 ^ 53) ∧
    ∃ (searches : List (RowSearch ℤ entries.side)) (assignment : Assignment ℤ),
      Runs (entries.map (Int.cast : ℤ → ℚ)) (options.map Int.cast epsilon)
        (searches.map (RowSearch.map Int.cast)) (assignment.map Int.cast) ∧
      Runs (entries.map Float.ofInt) (options.map Float.ofInt tolerance)
        (searches.map (RowSearch.map Float.ofInt)) (assignment.map Float.ofInt) ∧
      (entries.side < sideLimit →
        solveInMemory (entries.map Float.ofInt) (options.map Float.ofInt tolerance) =
          .ok (assignment.map Float.ofInt)) := by
  constructor
  · intro number hnumber
    exact (h.isIntegral hnonneg' hless').isSmall_of_computes hnumber
  · obtain ⟨searches, assignment, hexact, hruns⟩ := h.exists_runs hnonneg hless hnonneg' hless'
    obtain ⟨-, -, -, -, -, hsolve⟩ := id hruns
    refine ⟨searches, assignment, hexact, hruns, fun hside => ?_⟩
    rw [solveInMemory_of_side_lt (entries.map Float.ofInt) _ hside, hsolve]

def balanceSheet : CostMatrix ℤ where
  data := #[4, -3, 7, 2, 5, -7]
  rows := 2
  cols := 3

def balanceSheetOptions : Options ℤ where
  maximize := true
  disallowed := .ofList [(0, .ofList [2])]
  padValue := -1
  tolerance := 0

/-- A maximum with a forbidden cell and with costs on both sides of zero. -/
theorem solve_balanceSheet : balanceSheet.FitsDouble balanceSheetOptions 7 ∧ (0 : Float) ≤ 0.5 ∧
    (0.5 : Float) < 1 ∧ (0 : ℚ) ≤ 1 / 3 ∧ (1 / 3 : ℚ) < 1 ∧
    (∀ number, Computes (balanceSheet.map Int.cast) (balanceSheetOptions.map Int.cast (1 / 3))
      number → ∃ count : ℤ, number = count ∧ |count| ≤ 2 ^ 53) ∧
    ∃ (searches : List (RowSearch ℤ balanceSheet.side)) (assignment : Assignment ℤ),
      Runs (balanceSheet.map (Int.cast : ℤ → ℚ)) (balanceSheetOptions.map Int.cast (1 / 3))
        (searches.map (RowSearch.map Int.cast)) (assignment.map Int.cast) ∧
      Runs (balanceSheet.map Float.ofInt) (balanceSheetOptions.map Float.ofInt 0.5)
        (searches.map (RowSearch.map Float.ofInt)) (assignment.map Float.ofInt) ∧
      (balanceSheet.side < sideLimit →
        solveInMemory (balanceSheet.map Float.ofInt) (balanceSheetOptions.map Float.ofInt 0.5) =
          .ok (assignment.map Float.ofInt)) := by
  have hfits : balanceSheet.FitsDouble balanceSheetOptions 7 :=
    { wellShaped := by decide
      rows_pos := by decide
      cols_pos := by decide
      inside := by decide
      data_le := by decide
      padValue_le := by decide
      bound_le := by decide }
  have hnonneg : (0 : Float) ≤ 0.5 := by decide +kernel
  have hless : (0.5 : Float) < 1 := by decide +kernel
  exact ⟨hfits, hnonneg, hless, by norm_num, by norm_num,
    solve_of_fitsDouble hfits hnonneg hless (by norm_num) (by norm_num)⟩

def tiedSheet : CostMatrix ℤ where
  data := #[0, 0, -1, 1, 0, 0, -1, 0, -1, -1, 0, 0, 1, 0, 0, 0]
  rows := 4
  cols := 4

def tiedSheetOptions : Options ℤ where
  maximize := false
  disallowed := .ofList []
  padValue := 0
  tolerance := 0

/-- The same costs, one of the zeros being negative. -/
def signedSheet : CostMatrix Float where
  data := #[0, 0, -1, 1, 0, 0, -1, -0.0, -1, -1, 0, 0, 1, 0, 0, 0]
  rows := 4
  cols := 4

/-- With a negative zero the answer is another one than over whole numbers. -/
theorem solve_signedSheet : tiedSheet.FitsDouble tiedSheetOptions 1 ∧
    (∀ cost ∈ signedSheet.data, cost.isFinite = true) ∧
    signedSheet.map Double.value = tiedSheet.map Int.cast ∧
    (solve signedSheet (tiedSheetOptions.map Float.ofInt 0)).map Assignment.cols =
      .ok [some 2, some 3, some 0, some 1] ∧
    (solve (tiedSheet.map (Int.cast : ℤ → ℚ)) (tiedSheetOptions.map Int.cast 0)).map
      Assignment.cols = .ok [some 2, some 0, some 1, some 3] := by
  have hfits : tiedSheet.FitsDouble tiedSheetOptions 1 :=
    { wellShaped := by decide
      rows_pos := by decide
      cols_pos := by decide
      inside := by decide
      data_le := by decide
      padValue_le := by decide
      bound_le := by decide }
  refine ⟨hfits, ?_, ?_, ?_, ?_⟩
  · decide +kernel
  · decide +kernel
  · decide +kernel
  · decide +kernel

end Run

end Hungarian
