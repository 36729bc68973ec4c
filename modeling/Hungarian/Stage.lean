import Hungarian.Search.Run

/-!
The rows of a problem are matched one after another, each by one search. A stage is where the solver
stands between two searches.
-/

namespace Hungarian

structure Solution (α : Type) (size : Nat) where
  matching : Matching size
  potentials : Potentials α size
deriving DecidableEq, Repr

structure RowSearch (α : Type) (size : Nat) where
  row : Fin size
  deltas : List α
  path : Except SearchError (Path size)

structure Stage (α : Type) (size : Nat) where
  matching : Matching size
  state : Search.State α size
  /-- All searches up to here, the first one first. -/
  searches : List (RowSearch α size)

namespace Stage

variable {α : Type} {size : Nat}

def solution (stage : Stage α size) : Solution α size where
  matching := stage.matching
  potentials := stage.state.potentials

def tightenings (stage : Stage α size) : Nat :=
  stage.searches.foldl (fun sum search => sum + search.deltas.length) 0

variable [CostArithmetic α]

def initial (problem : Problem α size) : Stage α size where
  matching := .empty size
  state := { tree := .blank, potentials := .initial problem }
  searches := []

def matchRow (problem : Problem α size) (stage : Stage α size) (row : Fin size) :
    Stage α size × Except (Failure α) Unit :=
  match Search.run problem stage.matching stage.state row with
  | (state, .error error) =>
    let search := { row, deltas := state.tree.deltas, path := .error error }
    ({ stage with state, searches := stage.searches ++ [search] }, .error error.toFailure)
  | (state, .ok path) =>
    let search := { row, deltas := state.tree.deltas, path := .ok path }
    let matching := stage.matching.augment path
    let next := { matching, state, searches := stage.searches ++ [search] }
    if matching.count = row + 1 then (next, .ok ())
    else (next, .error (.refused (.internal "augmenting path did not grow the matching")))

def matchRows (problem : Problem α size) :
    List (Fin size) → Stage α size → Stage α size × Except (Failure α) Unit
  | [], stage => (stage, .ok ())
  | row :: rest, stage =>
    match stage.matchRow problem row with
    | (next, .ok ()) => next.matchRows problem rest
    | (last, .error failure) => (last, .error failure)

def final (problem : Problem α size) : Stage α size × Except (Failure α) Unit :=
  (initial problem).matchRows problem (List.finRange size)

end Stage

end Hungarian
