import Hungarian.Proofs.Assignment.Soundness
import Hungarian.Proofs.Double.Progress
import Hungarian.Proofs.Search.Balanced
import Hungarian.Proofs.Stage.Tightenings

/-!
# The log of a solve

The lines that a solve logs stem from several places: each search numbers its own moves of the
potentials, the run adds them up, and the answer knows what was stripped. A solve that succeeds has
matched the rows one after another, so that its log tells of every row once and in order. No search
meets more rows than there are up to its own, which bounds its moves and its path.
-/

namespace Hungarian

open CostArithmetic

variable {α : Type} {size : Nat}

structure Line (α : Type) where
  level : Level
  message : String
  fields : List (String × FieldValue α)
deriving DecidableEq, Repr

def Event.line (event : Event α) : Line α where
  level := event.level
  message := event.message
  fields := event.fields

/-- The lines on a row that is matched: the moves of the potentials, numbered from one, and then the
match. -/
def matchLines (row : Nat) (deltas : List α) (pathLength : Nat) : List (Line α) :=
  (deltas.zipIdx.map fun (delta, index) => {
    level := .trace
    message := "Potentials tightened"
    fields := [("delta", .cost delta), ("tightenings", .count (index + 1))] }) ++
  [{ level := .trace
     message := "Row matched"
     fields := [("row", .count row), ("path_len", .count pathLength),
      ("tightenings", .count deltas.length)] }]

def openingLines (matrix : CostMatrix α) (options : Options α) (sentinel : α) : List (Line α) :=
  [{ level := .trace
     message := "Normalized cost matrix"
     fields := [("size", .count matrix.side), ("sentinel", .cost sentinel),
      ("epsilon", .cost options.tolerance)] },
   { level := .debug
     message := "Solving assignment problem"
     fields := [("rows", .count matrix.rows), ("cols", .count matrix.cols),
      ("size", .count matrix.side), ("maximize", .flag options.maximize),
      ("disallowed", .count options.disallowed.count)] }]

def closingLines (matrix : CostMatrix α) (assignment : Assignment α) (tightenings : Nat) :
    List (Line α) :=
  (if assignment.stripped = [] then [] else
    [{ level := .warn
       message := "Forbidden pairs forced into the optimum were left unassigned"
       fields := [("count", .count assignment.stripped.length),
        ("pairs", .text (pairsText assignment.stripped))] }]) ++
  [{ level := .debug
     message := "Assignment solved"
     fields := [("cost", .cost assignment.cost),
      ("assigned", .count (min matrix.rows matrix.cols - assignment.stripped.length)),
      ("tightenings", .count tightenings), ("is_optimal", .flag assignment.isOptimal)] }]

/-- A search that found a path logs its moves and then its match. -/
theorem RowSearch.lines_events {search : RowSearch α size} {path : Path size}
    (h : search.path = .ok path) :
    search.events.map Event.line = matchLines search.row search.deltas path.length := by
  rw [events, h, matchLines, List.map_append, List.map_map]
  rfl

/-- A path from a row up to which all matched rows lie. -/
theorem Matching.Augments.length_le_of_bound {matching : Matching size} {path : Path size}
    {root : Fin size} (h : matching.Augments path) (hhead : path.head?.map Prod.fst = some root)
    (hbound : ∀ row : Fin size, (matching.colOf row).isSome → row ≤ root) :
    path.length ≤ root + 1 := by
  have hsubset : (path.map Prod.fst).toFinset ⊆ Finset.Iic root := by
    intro row hrow
    obtain ⟨cell, hcell, rfl⟩ := List.mem_map.mp (List.mem_toFinset.mp hrow)
    -- every row of the path is matched afterwards
    have hsome : ((matching.augment path).colOf cell.1).isSome := by
      rw [colOf_augment_of_mem h.rows_nodup hcell]
      rfl
    rw [Finset.mem_Iic]
    rcases (h.isSome_colOf_augment_iff hhead).mp hsome with heq | hmatched
    · exact heq.le
    · exact hbound cell.1 hmatched
  calc path.length = (path.map Prod.fst).toFinset.card := by
        rw [List.toFinset_card_of_nodup h.rows_nodup, List.length_map]
    _ ≤ (Finset.Iic root).card := Finset.card_le_card hsubset
    _ = root + 1 := Fin.card_Iic root

namespace Stage

variable [CostArithmetic α] {problem : Problem α size} {stage : Stage α size} {count : Nat}

theorem Reached.rows_searches (h : Reached problem count stage) :
    stage.searches.map RowSearch.row = (List.finRange size).take count := by
  induction h with
  | initial => rfl
  | @matchRow stage next row hstage hmatch ih =>
      obtain ⟨last, path, -, -, rfl⟩ := matchRow_eq_ok_iff.mp hmatch
      rw [List.map_append, ih, List.take_add_one]
      simp

/-- The search from each row has found a path, whose rows do not lie beyond it. -/
theorem Reached.exists_path_of_mem (h : Reached problem count stage) :
    ∀ search ∈ stage.searches, ∃ path, search.path = .ok path ∧ 1 ≤ path.length ∧
      path.length ≤ search.row + 1 := by
  induction h with
  | initial => exact fun _ hsearch => absurd hsearch List.not_mem_nil
  | @matchRow stage next row hstage hmatch ih =>
      obtain ⟨last, path, hrun, -, rfl⟩ := matchRow_eq_ok_iff.mp hmatch
      obtain ⟨haugments, hhead⟩ := Search.augments_of_run hrun
      intro search hsearch
      rcases List.mem_append.mp hsearch with hold | hnew
      · exact ih search hold
      · obtain rfl := List.mem_singleton.mp hnew
        refine ⟨path, rfl, List.length_pos_iff.mpr haugments.ne_nil, ?_⟩
        exact haugments.length_le_of_bound hhead fun other hother =>
          ((hstage.matched_iff other).mp hother).le

omit [CostArithmetic α] in
theorem tightenings_eq_sum (stage : Stage α size) :
    stage.tightenings = (stage.searches.map fun search => search.deltas.length).sum := by
  rw [tightenings, List.sum_eq_foldl, List.foldl_map]

/-- The searches of a run that has matched all rows, one for each row. -/
theorem exists_search_of_final (h : final problem = (stage, .ok ())) :
    ∃ (search : Fin size → RowSearch α size) (path : Fin size → Path size),
      stage.searches = (List.finRange size).map search ∧
      ∀ row, (search row).row = row ∧ (search row).path = .ok (path row) ∧
        1 ≤ (path row).length ∧ (path row).length ≤ row + 1 := by
  have hstage := reached_of_final h
  have hrows := hstage.rows_searches
  rw [List.take_of_length_le (by rw [List.length_finRange])] at hrows
  have hlength : stage.searches.length = size := by
    have hmapped := congrArg List.length hrows
    rwa [List.length_map, List.length_finRange] at hmapped
  let search : Fin size → RowSearch α size := fun row => stage.searches.get (row.cast hlength.symm)
  have hrow : ∀ row, (search row).row = row := by
    intro row
    have hget : (stage.searches.map RowSearch.row)[row.val]? = some row := by
      rw [hrows]
      simp
    rw [List.getElem?_map, List.getElem?_eq_getElem (hlength.symm ▸ row.isLt)] at hget
    exact Option.some.inj hget
  have hpath : ∀ row, ∃ path, (search row).path = .ok path ∧ 1 ≤ path.length ∧
      path.length ≤ row + 1 := by
    intro row
    obtain ⟨path, hpath, hpos, hle⟩ := hstage.exists_path_of_mem (search row) (List.get_mem _ _)
    exact ⟨path, hpath, hpos, by rwa [hrow] at hle⟩
  choose path hpath hpos hle using hpath
  refine ⟨search, path, ?_, fun row => ⟨hrow row, hpath row, hpos row, hle row⟩⟩
  refine List.ext_getElem (by simp [hlength]) fun index hindex _ => ?_
  simp [search]

end Stage

/-- Arithmetic in which the least slack brings a column near when it is taken from all slacks,
whatever the tolerance, unless that is negative. -/
class Settling (α : Type) [CostArithmetic α] : Prop where
  progresses : ∀ {size : Nat} (problem : Problem α size), ¬problem.epsilon < 0 →
    Search.Progresses problem

instance : Settling Float where
  progresses _ := Search.progresses_double

instance : Settling ℚ where
  progresses _ hnonneg := Search.progresses (not_lt.mp hnonneg)

section Solve

variable [CostArithmetic α] {matrix : CostMatrix α} {options : Options α}
  {problem : Problem α matrix.side} {stage : Stage α matrix.side} {assignment : Assignment α}

/-- What is reported, search after search, on the way to an answer. -/
theorem events_solveReport (hproblem : Problem.normalize matrix options = .ok problem)
    (hfinal : Stage.final problem = (stage, .ok ()))
    (hextract : stage.solution.extract matrix problem = .ok assignment) :
    (solveReport matrix options).events =
      [.normalized matrix.side problem.sentinel problem.epsilon,
        .solving problem.rows problem.cols matrix.side options.maximize options.disallowed.count] ++
      stage.searches.flatMap RowSearch.events ++
      ((if assignment.stripped.isEmpty then [] else [.stripped assignment.stripped]) ++
        [.solved assignment.cost assignment.assignedCount stage.tightenings
          assignment.isOptimal]) := by
  rw [solveReport, hproblem]
  dsimp only
  rw [hfinal]
  dsimp only
  rw [Report.ofStage, hextract]

omit [CostArithmetic α] in
theorem lines_closing (hcount : assignment.assignedCount + assignment.stripped.length =
      min matrix.rows matrix.cols) (tightenings : Nat) :
    ((if assignment.stripped.isEmpty then [] else [Event.stripped assignment.stripped]) ++
      [Event.solved assignment.cost assignment.assignedCount tightenings
        assignment.isOptimal]).map Event.line = closingLines matrix assignment tightenings := by
  have hassigned : assignment.assignedCount =
      min matrix.rows matrix.cols - assignment.stripped.length := by omega
  rw [closingLines, hassigned]
  by_cases hnil : assignment.stripped = []
  · rw [if_pos hnil, if_pos (List.isEmpty_iff.mpr hnil)]
    rfl
  · rw [if_neg hnil, if_neg (mt List.isEmpty_iff.mp hnil)]
    rfl

/-- **The log of a solve.** Whatever the rounding, the log of a solve that gives an answer has the
opening lines, then for each row in turn its moves of the potentials and its match, and the closing
lines with the number of all moves. The search from a row moves the potentials at most once for each
row up to it, and its path has at most as many cells and is not empty. -/
theorem exists_lines_of_solve [Settling α] (h : solve matrix options = .ok assignment) :
    ∃ (sentinel : α) (deltas : Fin matrix.side → List α) (pathLength : Fin matrix.side → Nat),
      (solveReport matrix options).events.map Event.line =
        openingLines matrix options sentinel ++
        ((List.finRange matrix.side).flatMap fun row : Fin matrix.side =>
          matchLines row (deltas row) (pathLength row)) ++
        closingLines matrix assignment (∑ row, (deltas row).length) ∧
      assignment.stripped.length ≤ min matrix.rows matrix.cols ∧
      ∀ row : Fin matrix.side,
        (deltas row).length ≤ row + 1 ∧ 1 ≤ pathLength row ∧ pathLength row ≤ row + 1 := by
  obtain ⟨problem, stage, hproblem, hfinal, hextract⟩ := solve_eq_ok_iff.mp h
  have hframes := Problem.frames_of_normalize hproblem
  have hcount := (isSound_of_solve h).count
  have hfrugal := (Stage.reached_of_final hfinal).isFrugal
    (Settling.progresses problem (Problem.epsilon_nonneg_of_normalize hproblem))
  obtain ⟨search, path, hsearches, hsearch⟩ := Stage.exists_search_of_final hfinal
  have hrows : (stage.searches.flatMap RowSearch.events).map Event.line =
      (List.finRange matrix.side).flatMap fun row : Fin matrix.side =>
        matchLines row (search row).deltas (path row).length := by
    rw [hsearches, List.flatMap_map, List.map_flatMap]
    refine List.flatMap_congr fun row _ => ?_
    rw [RowSearch.lines_events (hsearch row).2.1, (hsearch row).1]
  have htightenings : stage.tightenings = ∑ row, (search row).deltas.length := by
    rw [Stage.tightenings_eq_sum, hsearches, List.map_map, Fin.sum_univ_def]
    rfl
  refine ⟨problem.sentinel, fun row => (search row).deltas, fun row => (path row).length, ?_,
    by omega, fun row => ⟨?_, (hsearch row).2.2⟩⟩
  · rw [events_solveReport hproblem hfinal hextract, List.map_append, List.map_append, hrows,
      lines_closing hcount, htightenings, hframes.rows_eq, hframes.cols_eq, hframes.epsilon_eq]
    rfl
  · have hle := hfrugal.deltas_le (search row) (by rw [hsearches]; simp)
    rwa [(hsearch row).1] at hle

def shelved : CostMatrix Float where
  data := #[3, 6, 4, 5, 2, 0, 1, 2, 3, 1, 2, 1]
  rows := 4
  cols := 3

def shelvedOptions : Options Float where
  maximize := false
  disallowed := .ofList [(1, .ofList [0, 1, 2]), (2, .ofList [0, 1, 2]), (3, .ofList [1])]
  padValue := 0
  tolerance := 0

def shelvedAssignment : Assignment Float where
  cols := [some 0, none, none, some 2]
  rows := [some 0, none, some 3]
  isOptimal := false
  cost := 4
  stripped := [(2, 1)]
  dualBound := 35

/-- Only the third search moves the potentials, and its path has two cells. -/
theorem exists_lines_shelved : solve shelved shelvedOptions = .ok shelvedAssignment ∧
    ((solveReport shelved shelvedOptions).events.map Event.message) =
      ["Normalized cost matrix", "Solving assignment problem", "Row matched", "Row matched",
        "Potentials tightened", "Potentials tightened", "Row matched", "Row matched",
        "Forbidden pairs forced into the optimum were left unassigned", "Assignment solved"] ∧
    .rowMatched 2 2 2 ∈ (solveReport shelved shelvedOptions).events ∧
    ∃ (sentinel : Float) (deltas : Fin shelved.side → List Float)
        (pathLength : Fin shelved.side → Nat),
      (solveReport shelved shelvedOptions).events.map Event.line =
        openingLines shelved shelvedOptions sentinel ++
        ((List.finRange shelved.side).flatMap fun row : Fin shelved.side =>
          matchLines row (deltas row) (pathLength row)) ++
        closingLines shelved shelvedAssignment (∑ row, (deltas row).length) ∧
      shelvedAssignment.stripped.length ≤ min shelved.rows shelved.cols ∧
      ∀ row : Fin shelved.side,
        (deltas row).length ≤ row + 1 ∧ 1 ≤ pathLength row ∧ pathLength row ≤ row + 1 := by
  have hsolve : solve shelved shelvedOptions = .ok shelvedAssignment := by decide +kernel
  exact ⟨hsolve, by decide +kernel, by decide +kernel, exists_lines_of_solve hsolve⟩

end Solve

end Hungarian
