import Hungarian.Document.Decode
import Hungarian.Matrix.Build
import Hungarian.Proofs.Flat.Solve

/-!
# Matrices read from documents

Reading a matrix takes its data and its sides as they are, so that every matrix whose sides are
indices can be read, however few or many cells it stores. `ofData` refuses such data. What a solve
then makes of it is settled by the larger side, whose square there has to be room for, and by two
counts: the places of the shape, and the cells that this square has places for.
-/

namespace Hungarian

open Document

namespace Document

theorem index?_integer {index : Nat} (h : index < indexLimit) :
    (Document.integer index).index? = some index := by
  rw [index?, if_pos ⟨Int.natCast_nonneg index, Int.ofNat_lt.mpr h⟩, Int.toNat_natCast]

theorem lt_of_index?_eq_some {document : Document} {index : Nat}
    (h : document.index? = some index) : index < indexLimit := by
  cases document with
  | integer value =>
      rw [index?] at h
      split at h
      · next hvalue =>
          obtain rfl := Option.some.inj h
          omega
      · cases h
  | null | flag | real | text | list | record => cases h

theorem listOf?_number?_reals (costs : List Float) :
    (Document.list (costs.map .real)).listOf? number? = some costs := by
  induction costs with
  | nil => rfl
  | cons cost rest ih =>
      rw [listOf?] at ih
      rw [List.map_cons, listOf?, List.mapM_cons, ih]
      rfl

end Document

namespace CostMatrix

variable {matrix : CostMatrix Float}

/-- The parts of a matrix are read one by one, and nothing compares them. -/
theorem ofParts?_eq_some_iff {data rows cols : Document} : ofParts? data rows cols = some matrix ↔
    data.listOf? number? = some matrix.data.toList ∧ rows.index? = some matrix.rows ∧
      cols.index? = some matrix.cols := by
  simp only [ofParts?, bind, Option.bind_eq_some_iff, pure, Option.some.injEq]
  constructor
  · rintro ⟨costs, hcosts, row, hrow, col, hcol, rfl⟩
    exact ⟨hcosts, hrow, hcol⟩
  · rintro ⟨hcosts, hrow, hcol⟩
    exact ⟨_, hcosts, _, hrow, _, hcol, rfl⟩

/-- Every matrix can be read whose sides are indices, whatever its data. -/
theorem exists_ofDocument?_eq_some_iff : (∃ document, ofDocument? document = some matrix) ↔
    matrix.rows < indexLimit ∧ matrix.cols < indexLimit := by
  constructor
  · rintro ⟨document, h⟩
    unfold ofDocument? at h
    have hparts : ∃ data rows cols, ofParts? data rows cols = some matrix := by
      split at h
      · simp only [bind, Option.bind_eq_some_iff] at h
        obtain ⟨data, -, rows, -, cols, -, hparts⟩ := h
        exact ⟨data, rows, cols, hparts⟩
      · exact ⟨_, _, _, h⟩
      · cases h
    obtain ⟨data, rows, cols, hparts⟩ := hparts
    obtain ⟨-, hrows, hcols⟩ := ofParts?_eq_some_iff.mp hparts
    exact ⟨lt_of_index?_eq_some hrows, lt_of_index?_eq_some hcols⟩
  · rintro ⟨hrows, hcols⟩
    refine ⟨.list [.list (matrix.data.toList.map .real), .integer matrix.rows,
      .integer matrix.cols], ?_⟩
    exact ofParts?_eq_some_iff.mpr
      ⟨listOf?_number?_reals _, index?_integer hrows, index?_integer hcols⟩

end CostMatrix

section Counts

variable {matrix : CostMatrix Float} {options : Options Float}

theorem solve_eq_of_check {failure : Failure Float}
    (hcheck : Problem.check matrix options = .error failure) :
    solve matrix options = .error failure :=
  solve_eq_error_of_normalize (Problem.normalize_eq_error_of_check hcheck)

/-- More cells than the square has places for are one fault, after the checks. -/
theorem solve_of_surplus (hsurplus : matrix.side * matrix.cols < matrix.data.size) :
    solve matrix options =
      (Problem.check matrix options).bind fun _ => .error (.faulted .outOfRange) := by
  cases hcheck : Problem.check matrix options with
  | error failure => exact solve_eq_of_check hcheck
  | ok => exact solve_eq_error_of_normalize (Problem.normalize_eq_outOfRange hcheck hsurplus)

/-- Cells that are missing cost the pad value, unless the answer assigns one. -/
theorem solve_of_room (hroom : matrix.data.size ≤ matrix.side * matrix.cols) :
    solve matrix options = (Problem.check matrix options).bind fun _ =>
      (solve (matrix.completed options.padValue) options).bind matrix.answerStored := by
  cases hcheck : Problem.check matrix options with
  | error failure => exact solve_eq_of_check hcheck
  | ok => exact solve_eq_bind_solve_completed hcheck hroom

end Counts

/-- **Reading checks no shape.** A matrix that is read may store any number of cells. A solve of it
is refused for its sides, its costs or its options, or else it ends as follows. With sides whose
square there is no room for it faults. With shorter sides it does not fault if there is a cell for
every place and a place for every cell; with cells that its square has no place for it always does;
and cells that are missing cost the pad value, unless the answer assigns one, which faults. -/
theorem exists_ofDocument?_iff_and_solve_eq (matrix : CostMatrix Float) (options : Options Float) :
    ((∃ document, CostMatrix.ofDocument? document = some matrix) ↔
      matrix.rows < indexLimit ∧ matrix.cols < indexLimit) ∧
    (∀ failure, Problem.check matrix options = .error failure →
      ∃ error, failure = .refused error) ∧
    (sideLimit ≤ matrix.side → matrix.side * matrix.side < indexLimit →
      solveFlat matrix options =
        (Problem.check matrix options).bind fun _ => .error (.faulted .oversized)) ∧
    (sideLimit ≤ matrix.side → ∀ assignment, solveFlat matrix options ≠ .ok assignment) ∧
    (matrix.side < sideLimit → solveFlat matrix options = solve matrix options ∧
      (matrix.side * matrix.cols < matrix.data.size →
        solveFlat matrix options =
          (Problem.check matrix options).bind fun _ => .error (.faulted .outOfRange)) ∧
      (matrix.data.size ≤ matrix.side * matrix.cols →
        (∀ fault, solveFlat (matrix.completed options.padValue) options ≠
          .error (.faulted fault)) ∧
        solveFlat matrix options = (Problem.check matrix options).bind fun _ =>
          (solveFlat (matrix.completed options.padValue) options).bind matrix.answerStored) ∧
      (matrix.WellShaped → ∀ fault, solveFlat matrix options ≠ .error (.faulted fault))) := by
  refine ⟨CostMatrix.exists_ofDocument?_eq_some_iff,
    fun failure => Problem.exists_refused_of_check,
    fun hside => solveFlat_of_oversized hside options,
    fun hside => solveFlat_ne_ok hside options, fun hside => ?_⟩
  have hcompleted : (matrix.completed options.padValue).side < sideLimit := hside
  rw [solveFlat_eq hside, solveFlat_eq hcompleted]
  refine ⟨rfl, solve_of_surplus, fun hroom => ⟨solve_completed_ne_faulted hroom, solve_of_room hroom⟩,
    fun hshaped => ?_⟩
  exact solve_ne_faulted hshaped.ge (hshaped.trans_le matrix.mul_le_side_mul)

def shortDocument : Document :=
  .record [("data", .list [.integer 5]), ("rows", .integer 1), ("cols", .integer 2)]

def short : CostMatrix Float where
  data := #[5]
  rows := 1
  cols := 2

def shortAssignment : Assignment Float where
  cols := [some 0]
  rows := [some 0, none]
  isOptimal := true
  cost := 5
  stripped := []
  dualBound := 15

/-- A missing cell counts as ten when the pad value is ten, and the answer is certified as if that
were its cost. At the pad value zero the answer assigns it. -/
theorem solve_short : CostMatrix.ofDocument? shortDocument = some short ∧
    ¬short.WellShaped ∧
    CostMatrix.ofData short.data short.rows short.cols = .error (.shapeMismatch 1 1 2) ∧
    solve short (Options.standard.withPadValue 10) = .ok shortAssignment ∧
    solve short .standard = .error (.faulted .outOfRange) := by
  refine ⟨?_, ?_, ?_, ?_, ?_⟩
  · decide +kernel
  · decide
  · decide +kernel
  · decide +kernel
  · decide +kernel

end Hungarian
