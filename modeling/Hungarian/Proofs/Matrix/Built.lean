import Hungarian.Matrix.Build
import Hungarian.Matrix.ColumnMajor
import Mathlib.Algebra.BigOperators.Group.List.Basic

/-!
# Matrices that builders make

Every builder stores a cell for each place of the shape, as long as the number of places is an index,
and a write to a stored cell keeps their number. So the matrices that can be made without reading a
serialized form are well shaped, whatever their costs are.
-/

namespace Hungarian

/-! ### Results of computations -/

section Gives

variable {m : Type → Type} {β γ σ ε : Type}

def Gives [Functor m] (computation : m β) (property : β → Prop) : Prop :=
  ∃ refined : m { result // property result }, Subtype.val <$> refined = computation

section Monads

variable [Monad m] [LawfulMonad m] {computation : m β} {next : β → m γ} {property : β → Prop}
  {property' : γ → Prop}

theorem gives_pure {result : β} (h : property result) : Gives (pure result : m β) property :=
  ⟨pure ⟨result, h⟩, map_pure ..⟩

theorem gives_true (computation : m β) : Gives computation fun _ => True :=
  ⟨(fun result => ⟨result, trivial⟩) <$> computation, by simp⟩

theorem Gives.mono {weaker : β → Prop} (h : Gives computation property)
    (hweaker : ∀ result, property result → weaker result) : Gives computation weaker := by
  obtain ⟨refined, rfl⟩ := h
  exact ⟨(fun result => ⟨result.1, hweaker result.1 result.2⟩) <$> refined, by simp⟩

theorem Gives.bind (h : Gives computation property)
    (hnext : ∀ result, property result → Gives (next result) property') :
    Gives (computation >>= next) property' := by
  obtain ⟨refined, rfl⟩ := h
  refine ⟨refined >>= fun result => (hnext result.1 result.2).choose, ?_⟩
  rw [map_bind, bind_map_left]
  exact bind_congr fun result => (hnext result.1 result.2).choose_spec

/-- One result for each entry, with the property that each of them has. -/
theorem Gives.mapM {f : β → m γ} {entries : List β}
    (h : ∀ entry ∈ entries, Gives (f entry) property') : Gives (entries.mapM f) fun results =>
      results.length = entries.length ∧ ∀ result ∈ results, property' result := by
  induction entries with
  | nil => exact gives_pure ⟨rfl, by simp⟩
  | cons entry rest ih =>
      obtain ⟨hentry, hrest⟩ := List.forall_mem_cons.mp h
      rw [List.mapM_cons]
      refine hentry.bind fun result hresult => (ih hrest).bind fun results hresults => ?_
      exact gives_pure ⟨congrArg (· + 1) hresults.1,
        List.forall_mem_cons.mpr ⟨hresult, hresults.2⟩⟩

end Monads

theorem Gives.of_eq_ok {computation : Except ε β} {property : β → Prop} {result : β}
    (h : Gives computation property) (hresult : computation = .ok result) : property result := by
  obtain ⟨refined, rfl⟩ := h
  cases refined with
  | error failure => cases hresult
  | ok refined =>
      cases hresult
      exact refined.2

theorem Gives.mapError {ε' : Type} {computation : Except ε β} {property : β → Prop}
    (h : Gives computation property) (f : ε → ε') : Gives (computation.mapError f) property := by
  obtain ⟨refined, rfl⟩ := h
  refine ⟨refined.mapError f, ?_⟩
  cases refined <;> rfl

theorem Gives.of_run_eq_ok {computation : ExceptT ε (StateM σ) β} {property : β → Prop} {result : β}
    {state state' : σ} (h : Gives computation property)
    (hresult : computation.run state = (.ok result, state')) : property result := by
  obtain ⟨refined, rfl⟩ := h
  rw [ExceptT.run_map] at hresult
  change ((refined.run state).1.map Subtype.val, (refined.run state).2) = _ at hresult
  obtain ⟨houtcome, -⟩ := Prod.mk.inj hresult
  cases hrefined : (refined.run state).1 with
  | error failure =>
      rw [hrefined] at houtcome
      cases houtcome
  | ok refined =>
      rw [hrefined] at houtcome
      cases houtcome
      exact refined.2

theorem gives_error (failure : ε) {property : β → Prop} :
    Gives (.error failure : Except ε β) property :=
  ⟨.error failure, rfl⟩

theorem gives_throw (failure : ε) {property : β → Prop} :
    Gives (throw failure : ExceptT ε (StateM σ) β) property :=
  ⟨throw failure, rfl⟩

end Gives

namespace CostMatrix

variable {α β γ σ : Type} {matrix : CostMatrix α}

theorem length_flatten_of_forall {rows : List (List α)} {width : Nat}
    (h : ∀ row ∈ rows, row.length = width) : rows.flatten.length = rows.length * width := by
  have hwidths : rows.map List.length = List.replicate rows.length width :=
    List.map_eq_replicate_iff.mpr h
  rw [List.length_flatten, hwidths, List.sum_replicate_nat]

/-! ### Builders -/

theorem gives_readRow (cost? : β → Option α) (row : Nat) (entries : List β) :
    Gives (readRow cost? row entries) fun costs => costs.length = entries.length :=
  (Gives.mapM fun _ _ => gives_true _).mono fun _ hcosts => hcosts.1.trans List.length_zipIdx

theorem gives_readRows (cost? : β → Option α) (width : Nat) (rows : List (List β)) :
    Gives (readRows cost? width rows) fun costs =>
      costs.length = rows.length ∧ ∀ row ∈ costs, row.length = width := by
  have hrow : ∀ entry ∈ rows.zipIdx, Gives
      (if entry.1.length = width then readRow cost? entry.2 entry.1
      else .error (.raggedMatrix entry.2 width entry.1.length)) fun costs =>
        costs.length = width := by
    rintro ⟨entries, row⟩ -
    dsimp only
    split
    · next hwidth => exact (gives_readRow ..).mono fun costs hcosts => hcosts.trans hwidth
    · exact gives_error _
  exact (Gives.mapM hrow).mono fun costs hcosts => ⟨hcosts.1.trans List.length_zipIdx, hcosts.2⟩

theorem gives_ofRows (cost? : β → Option α) (rows : List (List β)) :
    Gives (ofRows cost? rows) WellShaped := by
  unfold ofRows
  refine (gives_true _).bind fun _ _ => ((gives_readRows ..).mapError _).bind fun costs hcosts =>
    gives_pure ?_
  change costs.flatten.length = rows.length * _
  rw [length_flatten_of_forall hcosts.2, hcosts.1]

theorem gives_ofFunction (cost? : β → γ → StateM σ (Option α)) (agents : List β) (tasks : List γ) :
    Gives (ofFunction cost? agents tasks) WellShaped := by
  unfold ofFunction
  split
  · exact gives_throw _
  · refine (gives_true _).bind fun _ _ =>
      (Gives.mapM fun entry _ => Gives.mapM fun _ _ => gives_true _).bind fun costs hcosts =>
        gives_pure ?_
    change costs.flatten.length = agents.length * tasks.length
    have hwidth : ∀ row ∈ costs, row.length = tasks.length := fun row hrow =>
      (hcosts.2 row hrow).1.trans List.length_zipIdx
    rw [length_flatten_of_forall hwidth, hcosts.1, List.length_zipIdx]

section Products

variable {rows cols : Nat} (hproduct : rows * cols < indexLimit)

include hproduct

theorem wellShaped_of_ofData {data : Array α} (h : ofData data rows cols = .ok matrix) :
    matrix.WellShaped := by
  unfold ofData at h
  split at h
  · next hsize =>
      cases h
      exact hsize.trans (wrapped_of_lt hproduct)
  · cases h

theorem eq_replicate_of_filled {cost : α} (h : filled rows cols cost = .ok matrix) :
    matrix = { data := Array.replicate (rows * cols) cost, rows, cols } := by
  obtain ⟨-, -, hmatrix⟩ := exists_of_bind_eq_ok h
  rw [wrapped_of_lt hproduct] at hmatrix
  exact (Except.ok.inj hmatrix).symm

theorem wellShaped_of_filled {cost : α} (h : filled rows cols cost = .ok matrix) :
    matrix.WellShaped := by
  rw [eq_replicate_of_filled hproduct h]
  exact Array.size_replicate

end Products

theorem wellShaped_toMatrix {rows cols : Nat} (table : ColumnMajor α rows cols) :
    table.toMatrix.WellShaped := by
  have hwidth : ∀ row ∈ (List.finRange rows).map fun row =>
      (List.finRange cols).map fun col => table.get row col, row.length = cols := by
    simp
  change ((List.finRange rows).flatMap fun row => _).length = rows * cols
  rw [List.flatMap_def, length_flatten_of_forall hwidth, List.length_map, List.length_finRange]

/-! ### Writes -/

theorem wellShaped_of_modify? {matrix' : CostMatrix α} {row col : Nat} {change : α → α}
    (h : matrix.modify? row col change = some matrix') (hshaped : matrix.WellShaped) :
    matrix'.WellShaped := by
  unfold modify? at h
  split at h
  · next hinside =>
      cases h
      exact (Array.size_set hinside).trans hshaped
  · cases h

/-- The matrices that come from a builder and any number of writes to stored cells. -/
inductive IsBuilt [CostArithmetic α] : CostMatrix α → Prop where
  | ofData {data : Array α} {rows cols : Nat} {matrix : CostMatrix α}
    (hproduct : rows * cols < indexLimit) (h : ofData data rows cols = .ok matrix) : IsBuilt matrix
  | ofRows {β : Type} {cost? : β → Option α} {rows : List (List β)} {matrix : CostMatrix α}
    (h : ofRows cost? rows = .ok matrix) : IsBuilt matrix
  | ofFunction {σ β γ : Type} {cost? : β → γ → StateM σ (Option α)} {agents : List β}
    {tasks : List γ} {before after : σ} {matrix : CostMatrix α}
    (h : (ofFunction cost? agents tasks).run before = (.ok matrix, after)) : IsBuilt matrix
  | filled {rows cols : Nat} {cost : α} {matrix : CostMatrix α}
    (hproduct : rows * cols < indexLimit) (h : filled rows cols cost = .ok matrix) : IsBuilt matrix
  | zeros {rows cols : Nat} {matrix : CostMatrix α}
    (hproduct : rows * cols < indexLimit) (h : zeros rows cols = .ok matrix) : IsBuilt matrix
  | toMatrix {rows cols : Nat} (table : ColumnMajor α rows cols) : IsBuilt table.toMatrix
  | modify? {matrix matrix' : CostMatrix α} {row col : Nat} {change : α → α}
    (hbuilt : IsBuilt matrix) (h : matrix.modify? row col change = some matrix') : IsBuilt matrix'

theorem IsBuilt.wellShaped [CostArithmetic α] (h : matrix.IsBuilt) : matrix.WellShaped := by
  induction h with
  | ofData hproduct h => exact wellShaped_of_ofData hproduct h
  | ofRows h => exact (gives_ofRows ..).of_eq_ok h
  | ofFunction h => exact (gives_ofFunction ..).of_run_eq_ok h
  | filled hproduct h => exact wellShaped_of_filled hproduct h
  | zeros hproduct h => exact wellShaped_of_filled hproduct h
  | toMatrix table => exact wellShaped_toMatrix table
  | modify? _ h ih => exact wellShaped_of_modify? h ih

/-- A write inside the shape goes through. -/
theorem IsBuilt.exists_modify?_eq_some [CostArithmetic α] (h : matrix.IsBuilt) {row col : Nat}
    (hrow : row < matrix.rows) (hcol : col < matrix.cols) (change : α → α) :
    ∃ matrix', matrix.modify? row col change = some matrix' ∧ matrix'.IsBuilt :=
  have hmodify := dif_pos (offset_lt_size h.wellShaped hrow hcol)
  ⟨_, hmodify, h.modify? hmodify⟩

end CostMatrix

end Hungarian
