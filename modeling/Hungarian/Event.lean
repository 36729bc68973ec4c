import Hungarian.Assignment

/-!
What a solve reports of its progress.
-/

namespace Hungarian

inductive Level where
  | trace
  | debug
  | warn
deriving DecidableEq, Repr

inductive FieldValue (α : Type) where
  | count (number : Nat)
  | flag (value : Bool)
  | cost (value : α)
  | text (value : String)
deriving DecidableEq, Repr

inductive Event (α : Type) where
  | normalized (size : Nat) (sentinel epsilon : α)
  | solving (rows cols size : Nat) (maximize : Bool) (disallowed : Nat)
  | tightened (delta : α) (tightenings : Nat)
  | rowMatched (row pathLength tightenings : Nat)
  | stripped (pairs : List (Nat × Nat))
  | solved (cost : α) (assigned tightenings : Nat) (isOptimal : Bool)
deriving DecidableEq, Repr

def pairsText (pairs : List (Nat × Nat)) : String :=
  let texts := pairs.map fun (row, col) => s!"({row}, {col})"
  "[" ++ String.intercalate ", " texts ++ "]"

namespace Event

variable {α : Type}

def level : Event α → Level
  | .normalized .. | .tightened .. | .rowMatched .. => .trace
  | .solving .. | .solved .. => .debug
  | .stripped .. => .warn

def message : Event α → String
  | .normalized .. => "Normalized cost matrix"
  | .solving .. => "Solving assignment problem"
  | .tightened .. => "Potentials tightened"
  | .rowMatched .. => "Row matched"
  | .stripped .. => "Forbidden pairs forced into the optimum were left unassigned"
  | .solved .. => "Assignment solved"

def fields : Event α → List (String × FieldValue α)
  | .normalized size sentinel epsilon =>
    [("size", .count size), ("sentinel", .cost sentinel), ("epsilon", .cost epsilon)]
  | .solving rows cols size maximize disallowed =>
    [("rows", .count rows), ("cols", .count cols), ("size", .count size),
      ("maximize", .flag maximize), ("disallowed", .count disallowed)]
  | .tightened delta tightenings => [("delta", .cost delta), ("tightenings", .count tightenings)]
  | .rowMatched row pathLength tightenings =>
    [("row", .count row), ("path_len", .count pathLength), ("tightenings", .count tightenings)]
  | .stripped pairs => [("count", .count pairs.length), ("pairs", .text (pairsText pairs))]
  | .solved cost assigned tightenings isOptimal =>
    [("cost", .cost cost), ("assigned", .count assigned), ("tightenings", .count tightenings),
      ("is_optimal", .flag isOptimal)]

end Event

def RowSearch.events {α : Type} {size : Nat} (search : RowSearch α size) : List (Event α) :=
  let moves := search.deltas.zipIdx.map fun (delta, index) => .tightened delta (index + 1)
  match search.path with
  | .ok path => moves ++ [.rowMatched search.row path.length search.deltas.length]
  | .error _ => moves

end Hungarian
