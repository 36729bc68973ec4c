import Hungarian.Assignment
import Hungarian.Document.Basic
import Hungarian.Options

/-!
Matrices, options and assignments from their stored forms. Each is a record with one field per part,
in which further fields are ignored, or the list of its parts in order.
-/

namespace Hungarian

open Document

def CostMatrix.ofParts? (data rows cols : Document) : Option (CostMatrix Float) := do
  let costs ← data.listOf? number?
  return { data := costs.toArray, rows := ← rows.index?, cols := ← cols.index? }

def CostMatrix.ofDocument? : Document → Option (CostMatrix Float)
  | .record fields => do
    ofParts? (← fields.lookup "data") (← fields.lookup "rows") (← fields.lookup "cols")
  | .list [data, rows, cols] => ofParts? data rows cols
  | _ => none

def ForbiddenPairs.ofDocument? : Document → Option ForbiddenPairs
  | .record fields => do
    let rows ← fields.mapM fun (key, columns) => do
      return (← keyIndex? key, IndexSet.ofList (← columns.listOf? index?))
    return .ofList rows
  | _ => none

def Document.partOr? {α : Type} (part : Option Document) (read? : Document → Option α)
    (standard : α) : Option α :=
  match part with
  | none => some standard
  | some document => read? document

def Options.ofParts? (maximize disallowed padValue tolerance : Option Document) :
    Option (Options Float) := do
  return {
    maximize := ← partOr? maximize flag? standard.maximize
    disallowed := ← partOr? disallowed ForbiddenPairs.ofDocument? standard.disallowed
    padValue := ← partOr? padValue number? standard.padValue
    tolerance := ← partOr? tolerance number? standard.tolerance }

/-- Options may leave out any part of the record, or the last parts of the list. -/
def Options.ofDocument? : Document → Option (Options Float)
  | .record fields =>
    ofParts? (fields.lookup "maximize") (fields.lookup "disallowed") (fields.lookup "pad_value")
      (fields.lookup "tolerance")
  | .list parts =>
    if parts.length ≤ 4 then ofParts? parts[0]? parts[1]? parts[2]? parts[3]? else none
  | _ => none

def Assignment.ofParts? (cols rows isOptimal cost stripped dualBound : Document) :
    Option (Assignment Float) := do
  return {
    cols := ← cols.listOf? optionalIndex?
    rows := ← rows.listOf? optionalIndex?
    isOptimal := ← isOptimal.flag?
    cost := ← cost.number?
    stripped := ← stripped.listOf? pair?
    dualBound := ← dualBound.number? }

def Assignment.ofDocument? : Document → Option (Assignment Float)
  | .record fields => do
    ofParts? (← fields.lookup "assignments") (← fields.lookup "inversions")
      (← fields.lookup "is_optimal") (← fields.lookup "cost") (← fields.lookup "stripped")
      (← fields.lookup "dual_bound")
  | .list [cols, rows, isOptimal, cost, stripped, dualBound] =>
    ofParts? cols rows isOptimal cost stripped dualBound
  | _ => none

end Hungarian
