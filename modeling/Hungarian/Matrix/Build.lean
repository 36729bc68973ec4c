import Hungarian.Matrix.Basic
import Hungarian.Memory

/-!
Building a matrix from its data, from rows, from a cost function on two lists, or from one cost. A
builder that stores the cells itself asks for room for all of them first.
-/

namespace Hungarian.CostMatrix

variable {α : Type}

def ofData (data : Array α) (rows cols : Nat) : Except (SolveError α) (CostMatrix α) :=
  if data.size = wrapped (rows * cols) then .ok { data, rows, cols }
  else .error (.shapeMismatch data.size rows cols)

def readRow {β : Type} (cost? : β → Option α) (row : Nat) (entries : List β) :
    Except (SolveError α) (List α) :=
  entries.zipIdx.mapM fun (entry, col) =>
    match cost? entry with
    | some cost => .ok cost
    | none => .error (.unrepresentableCost row col)

/-- A row is compared with the width before its entries are read, and after those of the rows above
it. -/
def readRows {β : Type} (cost? : β → Option α) (width : Nat) (rows : List (List β)) :
    Except (SolveError α) (List (List α)) :=
  rows.zipIdx.mapM fun (entries, row) =>
    if entries.length = width then readRow cost? row entries
    else .error (.raggedMatrix row width entries.length)

def ofRows {β : Type} (cost? : β → Option α) (rows : List (List β)) :
    Except (Failure α) (CostMatrix α) := do
  let width := rows.head?.elim 0 List.length
  reserve (wrapped (rows.length * width))
  let costs ← (readRows cost? width rows).mapError .refused
  return { data := costs.flatten.toArray, rows := rows.length, cols := width }

/-- The matrix of the costs of all pairs. The cost function is called once per pair, row after row,
and passes its state from call to call; the first pair without a cost ends the calls. -/
def ofFunction {σ β γ : Type} (cost? : β → γ → StateM σ (Option α)) (agents : List β)
    (tasks : List γ) : ExceptT (Failure α) (StateM σ) (CostMatrix α) :=
  if agents.isEmpty || tasks.isEmpty then
    throw (.refused .emptyMatrix)
  else do
    (reserve (wrapped (agents.length * tasks.length)) : Except (Failure α) Unit)
    let costs ← agents.zipIdx.mapM fun (agent, row) =>
      tasks.zipIdx.mapM fun (task, col) => do
        match ← (cost? agent task : StateM σ (Option α)) with
        | some cost => return cost
        | none => throw (.refused (.unrepresentableCost row col))
    return { data := costs.flatten.toArray, rows := agents.length, cols := tasks.length }

def filled (rows cols : Nat) (cost : α) : Except (Failure α) (CostMatrix α) := do
  let count := wrapped (rows * cols)
  reserve count
  return { data := Array.replicate count cost, rows, cols }

def zeros [CostArithmetic α] (rows cols : Nat) : Except (Failure α) (CostMatrix α) :=
  filled rows cols 0

end Hungarian.CostMatrix
