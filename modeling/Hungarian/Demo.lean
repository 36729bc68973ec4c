import Hungarian.Decimal.Positional
import Hungarian.Matrix.Build
import Hungarian.Solver

/-!
Four small assignment problems and their solutions, as a report of lines.
-/

namespace Hungarian.Demo

open CostArithmetic

def indicesText (indices : List Int) : String :=
  "[" ++ String.intercalate ", " (indices.map toString) ++ "]"

def assignmentLines (assignment : Assignment Float) : List String :=
  [ s!"  assignments: {indicesText assignment.signedCols}",
    s!"  inversions:  {indicesText assignment.signedRows}",
    s!"  total:       {Decimal.positional assignment.cost}",
    s!"  optimal:     {assignment.isOptimal}" ] ++
  if assignment.stripped.isEmpty then []
  else [s!"  stripped:    {pairsText assignment.stripped}"]

def chapter (title : String) (matrix : Except (Failure Float) (CostMatrix Float))
    (options : Options Float) : List String :=
  let lines :=
    match matrix.bind fun costs => solveInMemory costs options with
    | .ok assignment => assignmentLines assignment
    | .error (.refused error) => [s!"  error: {error.message Decimal.positional}"]
    | .error (.faulted _) => []
  [title] ++ lines ++ [""]

def ofIntegers (rows : List (List Int)) : Except (Failure Float) (CostMatrix Float) :=
  CostMatrix.ofRows (fun entry => some (Float.ofInt entry)) rows

def profits : Except (Failure Float) (CostMatrix Float) :=
  ofIntegers [
    [10, 5, 13, 15, 16],
    [3, 9, 18, 13, 6],
    [10, 7, 2, 2, 2],
    [7, 11, 9, 7, 12],
    [7, 9, 10, 4, 12]]

def distances : Except (Failure Float) (CostMatrix Float) :=
  let distance (worker task : Float) : StateM Unit (Option Float) :=
    return some (absolute (worker - task))
  ((CostMatrix.ofFunction distance [1, 4, 10] [2, 3.5]).run ()).1

def constrained : Except (Failure Float) (CostMatrix Float) :=
  ofIntegers [[5, 9, 0], [10, 0, 2], [8, 0, 4]]

def lines : List String :=
  ["Munkres: Optimal Assignment", "===========================", ""] ++
  chapter "5x5 minimum cost" profits .standard ++
  chapter "5x5 maximum profit" profits Options.standard.maximizing ++
  chapter "3x2 built from |a - b|" distances .standard ++
  chapter "3x3 with forbidden pairs" constrained
    (((Options.standard.disallow 0 2).disallow 1 1).disallow 2 1)

end Hungarian.Demo
