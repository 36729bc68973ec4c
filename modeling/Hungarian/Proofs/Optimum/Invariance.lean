import Hungarian.Proofs.Optimum.Answer
import Hungarian.Proofs.Problem.Counted
import Hungarian.Proofs.Stage.Shifted

/-!
# Changes of the costs that change no choice

A table no higher than it is wide is padded with whole rows. Whatever changes its costs by one
number for each row, and its pad value in any way, shifts the rows of its square problem, so that a
solve goes through the same searches and chooses the same pairs. Two such changes are read off here:
numbers added to the rows, and a maximum turned into a minimum.
-/

namespace Hungarian

open CostArithmetic

structure Assignment.SameChoice (assignment other : Assignment ℚ) : Prop where
  cols_eq : assignment.cols = other.cols
  rows_eq : assignment.rows = other.rows
  stripped_eq : assignment.stripped = other.stripped
  isOptimal_eq : assignment.isOptimal = other.isOptimal

namespace CostMatrix

def withData (matrix : CostMatrix ℚ) (data : Array ℚ) : CostMatrix ℚ :=
  { matrix with data }

/-- Input without forbidden pairs, no higher than it is wide, and other data and options for it: the
costs differ by a number for each row, and where one is a maximum and the other a minimum also by
their sign. -/
structure Parallels (matrix : CostMatrix ℚ) (options : Options ℚ) (data : Array ℚ)
    (options' : Options ℚ) (shift : Nat → ℚ) : Prop where
  wide : matrix.rows ≤ matrix.cols
  wellShaped : matrix.WellShaped
  wellShaped' : (matrix.withData data).WellShaped
  free : options.disallowed.toList = []
  free' : options'.disallowed.toList = []
  tolerance_eq : options'.tolerance = options.tolerance
  costAt_eq : ∀ row col, row < matrix.rows → col < matrix.cols →
    options'.sign * (matrix.withData data).costAt (row, col) =
      options.sign * matrix.costAt (row, col) + shift row

end CostMatrix

variable {matrix : CostMatrix ℚ} {options options' : Options ℚ} {data : Array ℚ}
  {shift : Nat → ℚ}

section Kept

variable {problem : Problem ℚ matrix.side} {σ : Equiv.Perm (Fin matrix.side)}

/-- A permutation keeps one cell of every row of a wide matrix without forbidden pairs. -/
theorem Problem.Frames.keptRows_eq (h : problem.Frames matrix options)
    (hwide : matrix.rows ≤ matrix.cols) (hfree : options.disallowed.toList = []) :
    problem.keptRows σ = Finset.univ.filter fun row : Fin matrix.side =>
      (row : Nat) < matrix.rows := by
  ext row
  have hcol : (σ row : Nat) < max matrix.rows matrix.cols := (σ row).isLt
  rw [mem_keptRows_iff, h.isAllowed_iff, Options.contains_eq_false hfree, Finset.mem_filter]
  simp only [Finset.mem_univ, true_and, and_true]
  omega

theorem sum_rows_eq (matrix : CostMatrix ℚ) (shift : Nat → ℚ) :
    ∑ row ∈ Finset.univ.filter (fun row : Fin matrix.side => (row : Nat) < matrix.rows),
        shift row.val =
      ∑ row ∈ Finset.range matrix.rows, shift row := by
  rw [Finset.sum_filter,
    Fin.sum_univ_eq_sum_range (fun row => if row < matrix.rows then shift row else 0) matrix.side,
    ← Finset.sum_filter]
  apply Finset.sum_congr _ fun _ _ => rfl
  ext row
  have hside : matrix.rows ≤ matrix.side := Nat.le_max_left _ _
  simp only [Finset.mem_filter, Finset.mem_range]
  omega

end Kept

namespace CostMatrix.Parallels

variable (h : matrix.Parallels options data options' shift)

include h

theorem accepts_iff : (matrix.withData data).Accepts options' ↔ matrix.Accepts options := by
  rw [accepts_iff_of_free h.wellShaped' h.free', accepts_iff_of_free h.wellShaped h.free,
    h.tolerance_eq]
  rfl

/-- Input that differs by rows makes problems that differ by rows. -/
theorem exists_shifted {problem problem' : Problem ℚ matrix.side}
    (hproblem : Problem.normalize matrix options = .ok problem)
    (hproblem' : Problem.normalize (matrix.withData data) options' = .ok problem') :
    ∃ rowShift, problem.Shifted rowShift problem' := by
  obtain ⟨base, hcost⟩ := Problem.exists_cost_eq_of_wide h.wellShaped h.wide h.free hproblem
  obtain ⟨base', hcost'⟩ := Problem.exists_cost_eq_of_wide h.wellShaped' h.wide h.free' hproblem'
  refine ⟨fun row => base' - base + if (row : Nat) < matrix.rows then shift row
    else options'.sign * options'.padValue - options.sign * options.padValue, ?_, ?_⟩
  · calc problem'.epsilon
        = options'.tolerance := (Problem.frames_of_normalize hproblem').epsilon_eq
      _ = options.tolerance := h.tolerance_eq
      _ = problem.epsilon := (Problem.frames_of_normalize hproblem).epsilon_eq.symm
  · intro row col
    have hcol : (col : Nat) < matrix.cols := by
      have hlt : (col : Nat) < max matrix.rows matrix.cols := col.isLt
      have hwide := h.wide
      omega
    have hsecond : problem'.cost row col = base' + options'.sign *
        (if (row : Nat) < matrix.rows then (matrix.withData data).costAt (row, col)
          else options'.padValue) := hcost' row col
    rw [hsecond, hcost]
    split
    · next hrow => linarith [h.costAt_eq row col hrow hcol]
    · ring

theorem sameLayout {problem problem' : Problem ℚ matrix.side}
    (hproblem : Problem.normalize matrix options = .ok problem)
    (hproblem' : Problem.normalize (matrix.withData data) options' = .ok problem') :
    problem.SameLayout problem' := by
  have hframes := Problem.frames_of_normalize hproblem
  have hframes' := Problem.frames_of_normalize hproblem'
  refine ⟨hframes.rows_eq.trans hframes'.rows_eq.symm,
    hframes.cols_eq.trans hframes'.cols_eq.symm, ?_⟩
  apply Square.ext
  intro row col
  calc problem.isForbidden row col
      = options.disallowed.contains row col := hframes.isForbidden_eq row col
    _ = false := Options.contains_eq_false h.free row col
    _ = options'.disallowed.contains row col := (Options.contains_eq_false h.free' row col).symm
    _ = problem'.isForbidden row col := (hframes'.isForbidden_eq row col).symm

section Answers

variable {problem problem' : Problem ℚ matrix.side} {stage stage' : Stage ℚ matrix.side}
  {σ : Equiv.Perm (Fin matrix.side)} {assignment assignment' : Assignment ℚ}
  (hanswers : Answers matrix options problem stage σ assignment)
  (hanswers' : Answers (matrix.withData data) options' problem' stage' σ assignment')

include hanswers hanswers'

theorem sameChoice (hmatching : stage.matching = stage'.matching) :
    assignment.SameChoice assignment' := by
  have hlayout := h.sameLayout hanswers.normalize_eq hanswers'.normalize_eq
  have hoptimal := hanswers.shows.isOptimal_iff
  have hoptimal' := hanswers'.shows.isOptimal_iff
  obtain ⟨cost, rfl⟩ := hanswers.exists_toAssignment_eq
  obtain ⟨cost', rfl⟩ := hanswers'.exists_toAssignment_eq
  have hstripped : (stage.solution.toAssignment problem cost).stripped =
      (stage'.solution.toAssignment problem' cost').stripped :=
    Solution.strippedPairs_eq_of_sameLayout hlayout hmatching cost cost'
  refine ⟨Solution.cols_eq_of_sameLayout hlayout hmatching cost cost',
    Solution.rows_eq_of_sameLayout hlayout hmatching cost cost', hstripped, ?_⟩
  rw [Bool.eq_iff_iff, hoptimal, hstripped]
  exact hoptimal'.symm

theorem sign_mul_cost_eq : options'.sign * assignment'.cost =
    options.sign * assignment.cost + ∑ row ∈ Finset.range matrix.rows, shift row := by
  have hlayout := h.sameLayout hanswers.normalize_eq hanswers'.normalize_eq
  have hframes := Problem.frames_of_normalize hanswers.normalize_eq
  have hcost : assignment.cost = ∑ row ∈ problem.keptRows σ, matrix.costAt (row, σ row) :=
    hanswers.shows.cost_eq.trans Problem.totalOver_keptCells
  have hcost' : assignment'.cost =
      ∑ row ∈ problem.keptRows σ, (matrix.withData data).costAt (row, σ row) := by
    rw [hlayout.keptRows_eq]
    exact hanswers'.shows.cost_eq.trans Problem.totalOver_keptCells
  rw [hcost, hcost', Finset.mul_sum, Finset.mul_sum, ← sum_rows_eq,
    ← hframes.keptRows_eq h.wide h.free, ← Finset.sum_add_distrib]
  apply Finset.sum_congr rfl
  intro row hrow
  have hinside := (hframes.isAllowed_iff.mp (Problem.mem_keptRows_iff.mp hrow)).1
  exact h.costAt_eq row (σ row) hinside.1 hinside.2

end Answers

/-- One choice of pairs for both, after the same searches. -/
theorem exists_runs (haccepts : matrix.Accepts options) :
    ∃ searches assignment assignment', Runs matrix options searches assignment ∧
      Runs (matrix.withData data) options' searches assignment' ∧
      assignment.SameChoice assignment' ∧
      options'.sign * assignment'.cost =
        options.sign * assignment.cost + ∑ row ∈ Finset.range matrix.rows, shift row := by
  obtain ⟨problem, stage, σ, assignment, hanswers⟩ := haccepts.exists_answers
  obtain ⟨problem', stage', τ, assignment', hanswers'⟩ := (h.accepts_iff.mpr haccepts).exists_answers
  obtain ⟨rowShift, hshifted⟩ := h.exists_shifted hanswers.normalize_eq hanswers'.normalize_eq
  obtain ⟨last, hlast, hmatching, hsearches⟩ :=
    Stage.exists_final_shifted hshifted hanswers'.final_eq
  obtain rfl : last = stage := congrArg Prod.fst (hlast.symm.trans hanswers.final_eq)
  obtain rfl : τ = σ := hanswers'.realizes.unique (hmatching ▸ hanswers.realizes)
  refine ⟨last.searches, assignment, assignment', hanswers.runs, ?_,
    h.sameChoice hanswers hanswers' hmatching, h.sign_mul_cost_eq hanswers hanswers'⟩
  rw [hsearches]
  exact hanswers'.runs

/-- One reason for refusing both. -/
theorem exists_refused (hrefused : ¬matrix.Accepts options) :
    ∃ error, solve matrix options = .error (.refused error) ∧
      solve (matrix.withData data) options' = .error (.refused error) := by
  have hnormalize := Problem.normalize_eq_error h.wellShaped h.free hrefused
  have hnormalize' :=
    Problem.normalize_eq_error h.wellShaped' h.free' (mt h.accepts_iff.mp hrefused)
  rw [h.tolerance_eq] at hnormalize'
  exact ⟨_, solve_eq_error_of_normalize hnormalize, solve_eq_error_of_normalize hnormalize'⟩

end CostMatrix.Parallels

section Rows

namespace CostMatrix

def addToRows (matrix : CostMatrix ℚ) (shift : Nat → ℚ) : CostMatrix ℚ :=
  matrix.withData (matrix.data.mapIdx fun index cost => cost + shift (index / matrix.cols))

theorem wellShaped_addToRows (h : matrix.WellShaped) (shift : Nat → ℚ) :
    (matrix.addToRows shift).WellShaped :=
  Array.size_mapIdx.trans h

theorem costAt_addToRows (h : matrix.WellShaped) {row col : Nat} (hrow : row < matrix.rows)
    (hcol : col < matrix.cols) :
    (matrix.addToRows shift).costAt (row, col) = matrix.costAt (row, col) + shift row := by
  have hindex : matrix.offset row col / matrix.cols = row := by
    rw [offset, Nat.mul_comm, Nat.mul_add_div (by omega), Nat.div_eq_of_lt hcol, Nat.add_zero]
  have hget : (matrix.addToRows shift).get? row col = (matrix.get? row col).map
      fun cost => cost + shift (matrix.offset row col / matrix.cols) :=
    Array.getElem?_mapIdx
  rw [costAt, hget, get?_eq_some_costAt h hrow hcol, hindex]
  rfl

end CostMatrix

/-- **Numbers added to the rows.** In a table no higher than it is wide and without forbidden pairs,
adding a number to each row and changing the pad value lead through the same searches, move by move,
to the same choice; the cost grows by the sum of the numbers. What is refused is refused for the same
reason. -/
theorem solve_addToRows (hshaped : matrix.WellShaped) (hwide : matrix.rows ≤ matrix.cols)
    (hfree : options.disallowed.toList = []) (shift : Nat → ℚ) (padValue : ℚ) :
    (matrix.Accepts options → ∃ searches assignment assignment',
      Runs matrix options searches assignment ∧
      Runs (matrix.addToRows shift) (options.withPadValue padValue) searches assignment' ∧
      assignment.SameChoice assignment' ∧
      assignment'.cost = assignment.cost + ∑ row ∈ Finset.range matrix.rows, shift row) ∧
    (¬matrix.Accepts options → ∃ error, solve matrix options = .error (.refused error) ∧
      solve (matrix.addToRows shift) (options.withPadValue padValue) =
        .error (.refused error)) := by
  have hparallels : matrix.Parallels options
      (matrix.data.mapIdx fun index cost => cost + shift (index / matrix.cols))
      (options.withPadValue padValue) fun row => options.sign * shift row :=
    { wide := hwide
      wellShaped := hshaped
      wellShaped' := CostMatrix.wellShaped_addToRows hshaped shift
      free := hfree
      free' := hfree
      tolerance_eq := rfl
      costAt_eq := by
        intro row col hrow hcol
        rw [← mul_add, ← CostMatrix.costAt_addToRows hshaped hrow hcol]
        rfl }
  refine ⟨fun haccepts => ?_, hparallels.exists_refused⟩
  obtain ⟨searches, assignment, assignment', hruns, hruns', hchoice, hcost⟩ :=
    hparallels.exists_runs haccepts
  refine ⟨searches, assignment, assignment', hruns, hruns', hchoice, ?_⟩
  rw [← Finset.mul_sum, ← mul_add] at hcost
  exact mul_left_cancel₀ options.sign_ne_zero hcost

def losses : CostMatrix ℚ where
  data := #[-5, -3, -4, -2, -3, -6]
  rows := 2
  cols := 3

def lossOptions : Options ℚ where
  maximize := false
  disallowed := .empty
  padValue := 0
  tolerance := 1 / 2

def lossShift (row : Nat) : ℚ :=
  if row = 0 then 7 / 2 else -2

theorem accepts_losses : losses.Accepts lossOptions where
  wellShaped := by decide
  rows_pos := by decide
  cols_pos := by decide
  inside := by decide
  tolerance_nonneg := by decide +kernel

/-- Each row of losses is moved by another number. -/
theorem solve_addToRows_losses : losses.WellShaped ∧ losses.rows ≤ losses.cols ∧
    lossOptions.disallowed.toList = [] ∧ losses.Accepts lossOptions ∧
    (∃ searches assignment assignment', Runs losses lossOptions searches assignment ∧
      Runs (losses.addToRows lossShift) (lossOptions.withPadValue 7) searches assignment' ∧
      assignment.SameChoice assignment' ∧
      assignment'.cost = assignment.cost + ∑ row ∈ Finset.range losses.rows, lossShift row) ∧
    (solve losses lossOptions).toOption.any (fun assignment =>
      assignment.cols == [some 0, some 2] && assignment.cost == -11) = true := by
  refine ⟨by decide, by decide, by decide, accepts_losses, ?_, by decide +kernel⟩
  exact (solve_addToRows (by decide) (by decide) (by decide) lossShift 7).1 accepts_losses

end Rows

section Complement

theorem CostMatrix.costAt_map_sub (h : matrix.WellShaped) (top : ℚ) {row col : Nat}
    (hrow : row < matrix.rows) (hcol : col < matrix.cols) :
    (matrix.map (top - ·)).costAt (row, col) = top - matrix.costAt (row, col) := by
  rw [costAt, get?_map, get?_eq_some_costAt h hrow hcol]
  rfl

/-- **A maximum as a minimum.** In a table no higher than it is wide and without forbidden pairs,
seeking the greatest total leads through the same searches to the same choice as seeking the least
total of what the profits are short of one number, such as the greatest profit, whatever the two pad
values are. -/
theorem solve_maximizing (hshaped : matrix.WellShaped) (hwide : matrix.rows ≤ matrix.cols)
    (hfree : options.disallowed.toList = []) (hminimize : options.maximize = false)
    (top padValue : ℚ) :
    (matrix.Accepts options → ∃ searches assignment assignment',
      Runs matrix options.maximizing searches assignment ∧
      Runs (matrix.map (top - ·)) (options.withPadValue padValue) searches assignment' ∧
      assignment.SameChoice assignment' ∧
      assignment'.cost = matrix.rows * top - assignment.cost) ∧
    (¬matrix.Accepts options → ∃ error,
      solve matrix options.maximizing = .error (.refused error) ∧
      solve (matrix.map (top - ·)) (options.withPadValue padValue) =
        .error (.refused error)) := by
  have hsign : options.maximizing.sign = -1 := rfl
  have hsign' : (options.withPadValue padValue).sign = 1 := by
    rw [Options.sign, Options.withPadValue, hminimize]
    rfl
  have hparallels : matrix.Parallels options.maximizing (matrix.data.map (top - ·))
      (options.withPadValue padValue) fun _ => top :=
    { wide := hwide
      wellShaped := hshaped
      wellShaped' := CostMatrix.wellShaped_map hshaped
      free := hfree
      free' := hfree
      tolerance_eq := rfl
      costAt_eq := by
        intro row col hrow hcol
        have hcost := CostMatrix.costAt_map_sub hshaped top hrow hcol
        rw [hsign, hsign', one_mul, neg_one_mul, neg_add_eq_sub]
        exact hcost }
  have hfree' : options.maximizing.disallowed.toList = [] := hfree
  have haccepts_iff : matrix.Accepts options.maximizing ↔ matrix.Accepts options := by
    rw [CostMatrix.accepts_iff_of_free hshaped hfree',
      CostMatrix.accepts_iff_of_free hshaped hfree]
    rfl
  refine ⟨fun haccepts => ?_, fun hrefused =>
    hparallels.exists_refused (mt haccepts_iff.mp hrefused)⟩
  obtain ⟨searches, assignment, assignment', hruns, hruns', hchoice, hcost⟩ :=
    hparallels.exists_runs (haccepts_iff.mpr haccepts)
  refine ⟨searches, assignment, assignment', hruns, hruns', hchoice, ?_⟩
  rw [hsign, hsign', one_mul, neg_one_mul, neg_add_eq_sub, Finset.sum_const, Finset.card_range,
    nsmul_eq_mul] at hcost
  exact hcost

theorem solve_maximizing_losses : losses.WellShaped ∧ losses.rows ≤ losses.cols ∧
    lossOptions.disallowed.toList = [] ∧ lossOptions.maximize = false ∧
    losses.Accepts lossOptions ∧ losses.greatest? = some (-2) ∧
    (∃ searches assignment assignment',
      Runs losses lossOptions.maximizing searches assignment ∧
      Runs (losses.map (-2 - ·)) (lossOptions.withPadValue 0) searches assignment' ∧
      assignment.SameChoice assignment' ∧
      assignment'.cost = losses.rows * -2 - assignment.cost) ∧
    (solve losses lossOptions.maximizing).toOption.any (fun assignment =>
      assignment.cols == [some 1, some 0] && assignment.cost == -5) = true := by
  refine ⟨by decide, by decide, by decide, rfl, accepts_losses, by decide +kernel, ?_,
    by decide +kernel⟩
  exact (solve_maximizing (by decide) (by decide) (by decide) rfl (-2) 0).1 accepts_losses

end Complement

end Hungarian
