import Hungarian.Error
import Hungarian.Search.Tree

/-!
The search for an augmenting path from a free row. The tree takes in the closest column as long as
its slack is zero within the tolerance, and otherwise moves the potentials by that slack. The search
ends when a free column joins the tree.
-/

namespace Hungarian

namespace SearchError

def reason : SearchError → String
  | .matchedRoot => "search started from a matched row"
  | .noColumnLeft => "augmenting path search ran out of columns"
  | .rowReachedTwice => "matched row reached twice in one alternating tree"
  | .cyclicPath => "augmenting path contains a cycle"
  | .unmatchedTreeRow => "tree row without a matched column"
  | .stalled => "search used up its steps"

def toFailure {α : Type} : SearchError → Failure α
  | .stalled => .faulted .stalled
  | error => .refused (.internal error.reason)

end SearchError

namespace Search

structure State (α : Type) (size : Nat) where
  tree : Tree α size
  potentials : Potentials α size

inductive Progress (α : Type) (size : Nat) where
  | grows (state : State α size)
  | arrives (col : Fin size) (state : State α size)
  | breaks (error : SearchError) (state : State α size)

variable {α : Type} {size : Nat}

def State.reach (state : State α size) (col : Fin size) : State α size :=
  { state with tree := state.tree.reach col }

variable [CostArithmetic α]

def State.plant (problem : Problem α size) (state : State α size) (root : Fin size) :
    State α size :=
  { state with tree := state.tree.plant problem state.potentials root }

def State.tighten (state : State α size) (delta : α) : State α size where
  tree := state.tree.tighten delta
  potentials := state.potentials.tighten delta state.tree.rows state.tree.cols

def State.enter (problem : Problem α size) (state : State α size) (row : Fin size) :
    State α size :=
  { state with tree := state.tree.enter problem state.potentials row }

def State.join (problem : Problem α size) (matching : Matching size) (state : State α size)
    (col : Fin size) : Progress α size :=
  let joined := state.reach col
  match matching.rowOf col with
  | none => .arrives col joined
  | some row =>
    if joined.tree.rows.get row then .breaks .rowReachedTwice joined
    else .grows (joined.enter problem row)

def advance (problem : Problem α size) (matching : Matching size) (state : State α size) :
    Progress α size :=
  match state.tree.closest? with
  | none => .breaks .noColumnLeft state
  | some col =>
    let slack := state.tree.slack.get col
    if problem.epsilon < slack then .grows (state.tighten slack)
    else state.join problem matching col

def explore (problem : Problem α size) (matching : Matching size) :
    Nat → State α size → State α size × Except SearchError (Fin size)
  | 0, state => (state, .error .stalled)
  | steps + 1, state =>
    match advance problem matching state with
    | .grows next => explore problem matching steps next
    | .arrives col last => (last, .ok col)
    | .breaks error last => (last, .error error)

/-- The state after a search from `root`, and its augmenting path. A search from a matched row
leaves the state as it is. Every column can join the tree once and the potentials move at most once
between two columns, which bounds the steps. -/
def run (problem : Problem α size) (matching : Matching size) (state : State α size)
    (root : Fin size) : State α size × Except SearchError (Path size) :=
  if (matching.colOf root).isSome then
    (state, .error .matchedRoot)
  else
    match explore problem matching (2 * size + 1) (state.plant problem root) with
    | (last, .error error) => (last, .error error)
    | (last, .ok col) => (last, last.tree.traceBack matching root size col [])

end Search

end Hungarian
