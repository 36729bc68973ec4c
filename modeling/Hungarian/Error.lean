/-!
Why a matrix, its settings or a search is refused. A `SolveError` is an answer to the caller; a
`Fault` is a broken promise of the caller, after which there is no answer.
-/

namespace Hungarian

inductive ErrorKind where
  /-- The caller gave a matrix or settings that have no solution. -/
  | invalidInput
  /-- A search met a state that correct potentials never produce. -/
  | internal
deriving DecidableEq, Repr

inductive SolveError (α : Type) where
  | emptyMatrix
  | raggedMatrix (row expected found : Nat)
  | shapeMismatch (length rows cols : Nat)
  | nonFiniteCost (row col : Nat) (value : α)
  | nonFinitePadValue (value : α)
  | invalidTolerance (value : α)
  | disallowedOutOfRange (row col rows cols : Nat)
  | unrepresentableCost (row col : Nat)
  | costOverflow
  | internal (reason : String)
deriving DecidableEq, Repr

inductive Fault where
  /-- A cell was read or written outside the data of its matrix. -/
  | outOfRange
  /-- The cells of a matrix without columns were numbered, and there were some. -/
  | divisionByZero
  /-- Room was asked for more cells than there are addresses. -/
  | oversized
  /-- A search used up its steps. -/
  | stalled
deriving DecidableEq, Repr

inductive Failure (α : Type) where
  | refused (error : SolveError α)
  | faulted (fault : Fault)
deriving DecidableEq, Repr

namespace SolveError

variable {α : Type}

def kind : SolveError α → ErrorKind
  | .internal _ => .internal
  | _ => .invalidInput

def isInvalidInput (error : SolveError α) : Bool :=
  error.kind == .invalidInput

def message (text : α → String) : SolveError α → String
  | .emptyMatrix => "cost matrix is empty"
  | .raggedMatrix row expected found =>
    s!"row {row} has {found} columns, expected {expected}"
  | .shapeMismatch length rows cols =>
    s!"data length {length} does not match a {rows}x{cols} matrix"
  | .nonFiniteCost row col value => s!"non-finite cost {text value} at ({row}, {col})"
  | .nonFinitePadValue value => s!"non-finite pad value {text value}"
  | .invalidTolerance value => s!"tolerance {text value} must be finite and non-negative"
  | .disallowedOutOfRange row col rows cols =>
    s!"disallowed pair ({row}, {col}) is outside the {rows}x{cols} matrix"
  | .unrepresentableCost row col => s!"cost at ({row}, {col}) cannot be represented as f64"
  | .costOverflow => "cost magnitudes too large to encode disallowed cells"
  | .internal reason => s!"internal invariant violated: {reason}"

end SolveError

theorem exists_ok_of_any {ε α : Type} {result : Except ε α} {test : α → Bool}
    (h : result.toOption.any test = true) : ∃ value, result = .ok value ∧ test value = true := by
  cases result with
  | error failure => exact absurd h Bool.false_ne_true
  | ok value => exact ⟨value, rfl, h⟩

theorem exists_of_bind_eq_ok {ε α β : Type} {first : Except ε α} {next : α → Except ε β}
    {result : β} (h : first >>= next = .ok result) :
    ∃ value, first = .ok value ∧ next value = .ok result := by
  cases first with
  | error failure => cases h
  | ok value => exact ⟨value, rfl, h⟩

theorem eq_ok_of_mapError {ε ε' α : Type} {f : ε → ε'} {result : Except ε α} {value : α}
    (h : result.mapError f = .ok value) : result = .ok value := by
  cases result with
  | error failure => cases h
  | ok other => exact congrArg Except.ok (Except.ok.inj h)

end Hungarian
