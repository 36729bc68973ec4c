import Hungarian.Memory

/-!
Structured data, in which matrices, options and assignments are stored and exchanged.
-/

namespace Hungarian

inductive Document where
  | null
  | flag (value : Bool)
  | integer (value : Int)
  | real (value : Float)
  | text (value : String)
  | list (items : List Document)
  | record (fields : List (String × Document))

namespace Document

def leastInteger : Int := -9223372036854775808

def flag? : Document → Option Bool
  | .flag value => some value
  | _ => none

def number? : Document → Option Float
  | .integer value => some (Float.ofInt value)
  | .real value => some value
  | _ => none

def index? : Document → Option Nat
  | .integer value =>
    if 0 ≤ value ∧ value < indexLimit then some value.toNat else none
  | _ => none

def optionalIndex? : Document → Option (Option Nat)
  | .null => some none
  | document => document.index?.map some

def pair? : Document → Option (Nat × Nat)
  | .list [row, col] => do return (← row.index?, ← col.index?)
  | _ => none

def listOf? {α : Type} (item? : Document → Option α) : Document → Option (List α)
  | .list items => items.mapM item?
  | _ => none

/-- The index that a key stands for, in decimal digits without leading zeros. -/
def keyIndex? (key : String) : Option Nat := do
  let index ← key.toNat?
  if toString index = key ∧ index < indexLimit then some index else none

end Document

end Hungarian
