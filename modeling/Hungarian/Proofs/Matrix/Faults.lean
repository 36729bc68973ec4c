import Hungarian.Proofs.Matrix.Built
import Hungarian.Proofs.Matrix.Scan

/-!
# Where builders fail

A matrix is built in two nested scans that stop at the first fault. Of rows the outer one checks the
width before the inner one reads the entries, so that the fault is that of the lowest row. The two
scans of a cost function are one scan of all pairs, and the calls are those for the pairs up to the
first one without a cost. What is stored is read back at its place.

Before the scans there is room to be found for all cells. Where there is none, no row is looked at
and no call is made.
-/

namespace Hungarian

variable {α β γ σ : Type}

namespace CostMatrix

/-! ### Rows -/

section Rows

variable {cost? : β → Option α} {rows : List (List β)} {entries : List β} {costs : List α}
  {width row : Nat} {failure : SolveError α} {matrix : CostMatrix α}

/-- A row that can be stored: it is as wide as the first one, and all of its entries are costs. -/
def IsReadable (cost? : β → Option α) (width : Nat) (entries : List β) : Prop :=
  entries.length = width ∧ ∀ entry ∈ entries, (cost? entry).isSome

/-- What is wrong with a row: its length, and else its first entry that is not a cost. -/
inductive RowFault (cost? : β → Option α) (width row : Nat) (entries : List β) :
    SolveError α → Prop
  | ragged (hlength : entries.length ≠ width) :
      RowFault cost? width row entries (.raggedMatrix row width entries.length)
  | unrepresentable {col : Nat} {entry : β} (hlength : entries.length = width)
      (hentry : entries[col]? = some entry) (hnone : cost? entry = none)
      (hearlier : ∀ earlier ∈ entries.take col, (cost? earlier).isSome) :
      RowFault cost? width row entries (.unrepresentableCost row col)

theorem scans_readRow (cost? : β → Option α) (row : Nat) : Scans (fun (entry, col) =>
    match cost? entry with
    | some cost => .ok cost
    | none => .error (SolveError.unrepresentableCost row col : SolveError α))
    fun entry cost => cost? entry = some cost := by
  intro entry col cost
  dsimp only
  cases cost? entry with
  | none => simp
  | some other => simp

theorem readRow_eq_ok_iff : readRow cost? row entries = .ok costs ↔
    List.Forall₂ (fun entry cost => cost? entry = some cost) entries costs :=
  (scans_readRow cost? row).mapM_zipIdx_eq_ok_iff

theorem readRow_eq_error_iff : readRow cost? row entries = .error failure ↔
    ∃ col entry, entries[col]? = some entry ∧ cost? entry = none ∧
      (∀ earlier ∈ entries.take col, (cost? earlier).isSome) ∧
      failure = .unrepresentableCost row col := by
  refine (scans_readRow cost? row).mapM_zipIdx_eq_error_iff.trans ?_
  simp only [Nat.zero_add, ← Option.isSome_iff_exists]
  refine exists_congr fun col => exists_congr fun entry => and_congr_right fun hentry => ?_
  cases cost? entry with
  | none =>
      constructor
      · rintro ⟨hfailure, hearlier⟩
        exact ⟨rfl, hearlier, (Except.error.inj hfailure).symm⟩
      · rintro ⟨-, hearlier, rfl⟩
        exact ⟨rfl, hearlier⟩
  | some cost => simp

def RowGives (cost? : β → Option α) (width : Nat) (entries : List β) (costs : List α) : Prop :=
  entries.length = width ∧ List.Forall₂ (fun entry cost => cost? entry = some cost) entries costs

theorem exists_rowGives_iff : (∃ costs, RowGives cost? width entries costs) ↔
    IsReadable cost? width entries := by
  simp only [RowGives, IsReadable, exists_and_left, exists_forall₂_iff, Option.isSome_iff_exists]

def scanRow (cost? : β → Option α) (width : Nat) (row : List β × Nat) :
    Except (SolveError α) (List α) :=
  if row.1.length = width then readRow cost? row.2 row.1
  else .error (.raggedMatrix row.2 width row.1.length)

theorem scans_scanRow (cost? : β → Option α) (width : Nat) :
    Scans (scanRow cost? width) (RowGives cost? width) := by
  intro entries row costs
  unfold scanRow
  split
  · next hlength => rw [readRow_eq_ok_iff, RowGives, and_iff_right hlength]
  · next hlength => simp [RowGives, show entries.length ≠ width from hlength]

theorem scanRow_eq_error_iff : scanRow cost? width (entries, row) = .error failure ↔
    RowFault cost? width row entries failure := by
  unfold scanRow
  split
  · next hlength =>
      rw [readRow_eq_error_iff]
      constructor
      · rintro ⟨col, entry, hentry, hnone, hearlier, rfl⟩
        exact .unrepresentable hlength hentry hnone hearlier
      · intro hfault
        cases hfault with
        | ragged hragged => exact absurd hlength hragged
        | unrepresentable _ hentry hnone hearlier => exact ⟨_, _, hentry, hnone, hearlier, rfl⟩
  · next hlength =>
      constructor
      · intro hfailure
        obtain rfl := Except.error.inj hfailure
        exact .ragged hlength
      · intro hfault
        cases hfault with
        | ragged => rfl
        | unrepresentable hwide => exact absurd hwide hlength

def widthOf (rows : List (List β)) : Nat :=
  rows.head?.elim 0 List.length

theorem ofRows_eq_bind (cost? : β → Option α) (rows : List (List β)) : ofRows cost? rows =
    (reserve (wrapped (rows.length * widthOf rows))).bind fun _ =>
      ((readRows cost? (widthOf rows) rows).mapError Failure.refused).map fun costs =>
        { data := costs.flatten.toArray, rows := rows.length, cols := widthOf rows } := by
  change (reserve (wrapped (rows.length * widthOf rows))).bind (fun _ =>
    (readRows cost? (widthOf rows) rows).mapError Failure.refused >>= fun costs => pure _) = _
  cases readRows cost? (widthOf rows) rows <;> rfl

/-- Room is made first, so that no row is read where there is none. -/
theorem ofRows_of_oversized (hproduct : rows.length * widthOf rows < indexLimit)
    (hlarge : cellLimit ≤ rows.length * widthOf rows) :
    ofRows cost? rows = .error (.faulted .oversized) := by
  rw [ofRows_eq_bind, reserve_wrapped_of_le hproduct hlarge]
  rfl

theorem exists_costs_of_ofRows (h : ofRows cost? rows = .ok matrix) :
    ∃ costs, List.Forall₂ (RowGives cost? (widthOf rows)) rows costs ∧
      matrix = { data := costs.flatten.toArray, rows := rows.length, cols := widthOf rows } := by
  obtain ⟨-, -, hstored⟩ := exists_of_bind_eq_ok h
  obtain ⟨costs, hcosts, hmatrix⟩ := exists_of_bind_eq_ok hstored
  exact ⟨costs, (scans_scanRow cost? (widthOf rows)).mapM_zipIdx_eq_ok_iff.mp
    (eq_ok_of_mapError hcosts), (Except.ok.inj hmatrix).symm⟩

section Room

variable (hroom : rows.length * widthOf rows < cellLimit)

include hroom

theorem ofRows_of_room : ofRows cost? rows =
    ((readRows cost? (widthOf rows) rows).mapError Failure.refused).map fun costs =>
      { data := costs.flatten.toArray, rows := rows.length, cols := widthOf rows } := by
  rw [ofRows_eq_bind, reserve_wrapped_of_lt hroom]
  rfl

/-- The error of the lowest row that cannot be stored. -/
theorem ofRows_eq_error_iff {outcome : Failure α} : ofRows cost? rows = .error outcome ↔
    ∃ failure, outcome = .refused failure ∧ ∃ row entries, rows[row]? = some entries ∧
      RowFault cost? (widthOf rows) row entries failure ∧
      ∀ earlier ∈ rows.take row, IsReadable cost? (widthOf rows) earlier := by
  have hscan (failure : SolveError α) : readRows cost? (widthOf rows) rows = .error failure ↔ _ :=
    (scans_scanRow cost? (widthOf rows)).mapM_zipIdx_eq_error_iff
  simp only [Nat.zero_add, scanRow_eq_error_iff, exists_rowGives_iff] at hscan
  simp only [← hscan]
  rw [ofRows_of_room hroom]
  cases readRows cost? (widthOf rows) rows with
  | error other => simp [Except.mapError, Except.map, eq_comm]
  | ok costs => exact iff_of_false nofun nofun

/-- Rows make a matrix when all of them can be stored. -/
theorem exists_ofRows_eq_ok_iff : (∃ matrix, ofRows cost? rows = .ok matrix) ↔
    ∀ entries ∈ rows, IsReadable cost? (widthOf rows) entries := by
  simp only [← exists_rowGives_iff, ← exists_forall₂_iff]
  constructor
  · rintro ⟨matrix, h⟩
    obtain ⟨costs, hcosts, -⟩ := exists_costs_of_ofRows h
    exact ⟨costs, hcosts⟩
  · rintro ⟨costs, hcosts⟩
    have hread : readRows cost? (widthOf rows) rows = .ok costs :=
      (scans_scanRow cost? (widthOf rows)).mapM_zipIdx_eq_ok_iff.mpr hcosts
    rw [ofRows_of_room hroom, hread]
    exact ⟨_, rfl⟩

end Room

/-- Every cost is read back at its place. -/
theorem get?_of_ofRows (h : ofRows cost? rows = .ok matrix) {col : Nat} {entry : β}
    (hrow : rows[row]? = some entries) (hcol : entries[col]? = some entry) :
    ∃ cost, cost? entry = some cost ∧ matrix.get? row col = some cost := by
  obtain ⟨costs, hcosts, rfl⟩ := exists_costs_of_ofRows h
  have hflat : List.Forall₂ (fun entry cost => cost? entry = some cost) rows.flatten
      costs.flatten :=
    List.rel_flatten (hcosts.imp fun _ _ hgives => hgives.2)
  have hwide : ∀ entries ∈ rows, entries.length = widthOf rows := fun entries hentries =>
    (exists_rowGives_iff.mp (exists_forall₂_iff.mp ⟨costs, hcosts⟩ entries hentries)).1
  have hlt : col < widthOf rows := by
    rw [← hwide entries (List.mem_of_getElem? hrow)]
    exact (List.getElem?_eq_some_iff.mp hcol).1
  have hentry : rows.flatten[row * widthOf rows + col]? = some entry := by
    rw [getElem?_flatten_of_forall hwide hlt, hrow]
    exact hcol
  obtain ⟨cost, hcost, hgives⟩ := exists_getElem?_of_forall₂ hflat hentry
  exact ⟨cost, hgives, (List.getElem?_toArray ..).trans hcost⟩

end Rows

/-! ### Cost functions -/

section Function

variable (cost? : β → γ → StateM σ (Option α)) (agents : List β) (tasks : List γ) (before : σ)

/-- The state after a number of calls, one for each pair of an agent and a task, row after row. -/
def callState (calls : Nat) : σ :=
  stateAfter (fun pair : β × γ => cost? pair.1 pair.2) (agents ×ˢ tasks) before calls

/-- What the call for a cell answers, after the calls for the cells before it. -/
def callAnswer (row : Fin agents.length) (col : Fin tasks.length) : Option α :=
  (cost? agents[row] tasks[col]
    (callState cost? agents tasks before (row * tasks.length + col))).1

def placedPairs : List ((β × Nat) × (γ × Nat)) :=
  agents.zipIdx ×ˢ tasks.zipIdx

def placedCost? (place : (β × Nat) × (γ × Nat)) : StateM σ (Option α) :=
  cost? place.1.1 place.2.1

def placedFault (α : Type) (place : (β × Nat) × (γ × Nat)) : Failure α :=
  .refused (.unrepresentableCost place.1.2 place.2.2)

theorem length_placedPairs : (placedPairs agents tasks).length = agents.length * tasks.length := by
  rw [placedPairs, List.length_product, List.length_zipIdx, List.length_zipIdx]

variable {agents tasks} in
theorem getElem?_placedPairs (row : Fin agents.length) (col : Fin tasks.length) :
    (placedPairs agents tasks)[row * tasks.length + col]? =
      some ((agents[row], row.val), (tasks[col], col.val)) := by
  have hcol : col < tasks.zipIdx.length := col.isLt.trans_eq List.length_zipIdx.symm
  have hpair : (agents.zipIdx ×ˢ tasks.zipIdx)[row * tasks.zipIdx.length + col]? = _ :=
    getElem?_product hcol
  rw [List.length_zipIdx] at hpair
  rw [placedPairs, hpair]
  simp

theorem map_placedPairs :
    (placedPairs agents tasks).map (fun place => (place.1.1, place.2.1)) = agents ×ˢ tasks := by
  conv_rhs => rw [← List.zipIdx_map_fst 0 agents, ← List.zipIdx_map_fst 0 tasks]
  simp only [placedPairs, SProd.sprod, List.product, List.map_flatMap, List.flatMap_map,
    List.map_map]
  rfl

theorem stateAfter_placedPairs (calls : Nat) :
    stateAfter (placedCost? cost?) (placedPairs agents tasks) before calls =
      callState cost? agents tasks before calls := by
  rw [callState, stateAfter, stateAfter, ← map_placedPairs, ← List.map_take, List.foldl_map]
  rfl

/-- A call is told by its place or by its number. -/
theorem answerAt_placedPairs (row : Fin agents.length) (col : Fin tasks.length) :
    answerAt (placedCost? cost?) (placedPairs agents tasks) before (row * tasks.length + col) =
      callAnswer cost? agents tasks before row col := by
  rw [answerAt, getElem?_placedPairs, stateAfter_placedPairs]
  rfl

section NotEmpty

variable {agents tasks} (hagents : agents ≠ []) (htasks : tasks ≠ [])

include hagents htasks

theorem ofFunction_eq_bind : ofFunction cost? agents tasks =
    ((reserve (wrapped (agents.length * tasks.length)) : Except (Failure α) Unit) >>= fun _ =>
      (fun costs => { data := costs.toArray, rows := agents.length, cols := tasks.length }) <$>
        (placedPairs agents tasks).mapM (ask (placedCost? cost?) (placedFault α)) :
      ExceptT (Failure α) (StateM σ) (CostMatrix α)) := by
  have hnot : ¬(agents.isEmpty || tasks.isEmpty) = true := by simp [hagents, htasks]
  rw [ofFunction, if_neg hnot, placedPairs, ← flatten_mapM_mapM, Functor.map_map, ← bind_pure_comp]
  rfl

theorem ofFunction_of_room (hroom : agents.length * tasks.length < cellLimit) :
    ofFunction cost? agents tasks =
      (fun costs => { data := costs.toArray, rows := agents.length, cols := tasks.length }) <$>
        (placedPairs agents tasks).mapM (ask (placedCost? cost?) (placedFault α)) := by
  rw [ofFunction_eq_bind cost? hagents htasks, reserve_wrapped_of_lt hroom]
  rfl

/-- Room is made first, so that no call is made where there is none. -/
theorem run_ofFunction_of_oversized (hproduct : agents.length * tasks.length < indexLimit)
    (hlarge : cellLimit ≤ agents.length * tasks.length) :
    (ofFunction cost? agents tasks).run before = (.error (.faulted .oversized), before) := by
  rw [ofFunction_eq_bind cost? hagents htasks, reserve_wrapped_of_le hproduct hlarge]
  rfl

end NotEmpty

theorem exists_place {rows cols call : Nat} (h : call < rows * cols) :
    ∃ (row : Fin rows) (col : Fin cols), row * cols + col = call := by
  have hpos : 0 < cols := Nat.pos_of_mul_pos_left (Nat.zero_lt_of_lt h)
  refine ⟨⟨call / cols, ?_⟩, ⟨call % cols, Nat.mod_lt _ hpos⟩, Nat.div_add_mod' call cols⟩
  exact Nat.div_lt_of_lt_mul (Nat.mul_comm rows cols ▸ h)

variable {cost? agents tasks before}

section Room

variable (hroom : agents.length * tasks.length < cellLimit)

include hroom

/-- Where every call is answered, each answer is stored at the place of its call. -/
theorem run_ofFunction_of_isSome (hagents : agents ≠ []) (htasks : tasks ≠ [])
    (h : ∀ row col, (callAnswer cost? agents tasks before row col).isSome) :
    ∃ matrix, (ofFunction cost? agents tasks).run before =
        (.ok matrix, callState cost? agents tasks before (agents.length * tasks.length)) ∧
      matrix.rows = agents.length ∧ matrix.cols = tasks.length ∧
      ∀ (row : Fin agents.length) (col : Fin tasks.length),
        matrix.get? row col = callAnswer cost? agents tasks before row col := by
  have hall : ∀ call < (placedPairs agents tasks).length,
      (answerAt (placedCost? cost?) (placedPairs agents tasks) before call).isSome := by
    intro call hlt
    rw [length_placedPairs] at hlt
    obtain ⟨row, col, rfl⟩ := exists_place hlt
    rw [answerAt_placedPairs]
    exact h row col
  obtain ⟨costs, hrun, hcosts⟩ := run_mapM_ask_of_isSome (placedFault α) hall
  rw [length_placedPairs, stateAfter_placedPairs] at hrun
  rw [ofFunction_of_room cost? hagents htasks hroom]
  refine ⟨_, run_map hrun _, rfl, rfl, fun row col => ?_⟩
  rw [← answerAt_placedPairs, ← hcosts]
  exact List.getElem?_toArray ..

/-- The first call without an answer is the last one. -/
theorem run_ofFunction_of_none {row : Fin agents.length} {col : Fin tasks.length}
    (hnone : callAnswer cost? agents tasks before row col = none)
    (hearlier : ∀ (above : Fin agents.length) (left : Fin tasks.length),
      above * tasks.length + left < row * tasks.length + col →
        (callAnswer cost? agents tasks before above left).isSome) :
    (ofFunction cost? agents tasks).run before = (.error (.refused (.unrepresentableCost row col)),
      callState cost? agents tasks before (row * tasks.length + col + 1)) := by
  have hagents : agents ≠ [] := List.ne_nil_of_length_pos row.pos
  have htasks : tasks ≠ [] := List.ne_nil_of_length_pos col.pos
  have hplace := getElem?_placedPairs row col
  have hinside : row * tasks.length + col < agents.length * tasks.length := by
    rw [← length_placedPairs]
    exact (List.getElem?_eq_some_iff.mp hplace).1
  have hbefore : ∀ call < row * tasks.length + col,
      (answerAt (placedCost? cost?) (placedPairs agents tasks) before call).isSome := by
    intro call hlt
    obtain ⟨above, left, rfl⟩ := exists_place (hlt.trans hinside)
    rw [answerAt_placedPairs]
    exact hearlier above left hlt
  rw [← answerAt_placedPairs] at hnone
  have hrun := run_mapM_ask_of_none (placedFault α) hplace hnone hbefore
  rw [stateAfter_placedPairs] at hrun
  rw [ofFunction_of_room cost? hagents htasks hroom]
  exact run_map hrun _

end Room

end Function

/-! ### Both builders -/

/-- How rows are read for which there is room: as a matrix with all their costs, or else as the fault
of the lowest row that cannot be stored. -/
structure ReadsRows (cost? : β → Option α) (rows : List (List β)) : Prop where
  exists_ok_iff : rows.length * widthOf rows < cellLimit →
    ((∃ matrix, ofRows cost? rows = .ok matrix) ↔
      ∀ entries ∈ rows, IsReadable cost? (widthOf rows) entries)
  of_ok : ∀ matrix, ofRows cost? rows = .ok matrix →
    matrix.rows = rows.length ∧ matrix.cols = widthOf rows ∧
    ∀ row entries col entry, rows[row]? = some entries → entries[col]? = some entry →
      ∃ cost, cost? entry = some cost ∧ matrix.get? row col = some cost
  error_iff : rows.length * widthOf rows < cellLimit →
    ∀ outcome, ofRows cost? rows = .error outcome ↔
      ∃ failure, outcome = .refused failure ∧ ∃ row entries, rows[row]? = some entries ∧
        RowFault cost? (widthOf rows) row entries failure ∧
        ∀ earlier ∈ rows.take row, IsReadable cost? (widthOf rows) earlier
  of_oversized : rows.length * widthOf rows < indexLimit →
    cellLimit ≤ rows.length * widthOf rows → ofRows cost? rows = .error (.faulted .oversized)

/-- How a cost function is called where there is room for its answers: once for each pair, row after
row, until a call has no answer. -/
structure CallsInOrder (cost? : β → γ → StateM σ (Option α)) (agents : List β) (tasks : List γ)
    (before : σ) : Prop where
  of_isSome : agents.length * tasks.length < cellLimit → agents ≠ [] → tasks ≠ [] →
    (∀ row col, (callAnswer cost? agents tasks before row col).isSome) →
    ∃ matrix, (ofFunction cost? agents tasks).run before =
        (.ok matrix, callState cost? agents tasks before (agents.length * tasks.length)) ∧
      matrix.rows = agents.length ∧ matrix.cols = tasks.length ∧
      ∀ (row : Fin agents.length) (col : Fin tasks.length),
        matrix.get? row col = callAnswer cost? agents tasks before row col
  of_none : agents.length * tasks.length < cellLimit →
    ∀ (row : Fin agents.length) (col : Fin tasks.length),
    callAnswer cost? agents tasks before row col = none →
    (∀ (above : Fin agents.length) (left : Fin tasks.length),
      above * tasks.length + left < row * tasks.length + col →
        (callAnswer cost? agents tasks before above left).isSome) →
    (ofFunction cost? agents tasks).run before = (.error (.refused (.unrepresentableCost row col)),
      callState cost? agents tasks before (row * tasks.length + col + 1))
  of_oversized : agents ≠ [] → tasks ≠ [] → agents.length * tasks.length < indexLimit →
    cellLimit ≤ agents.length * tasks.length →
    (ofFunction cost? agents tasks).run before = (.error (.faulted .oversized), before)

/-- **Builders stop at the first fault.** Where there is room for all cells, rows make a matrix with
every cost at its place, or the fault of the lowest faulty row is the answer, its length before its
entries. A cost function is called for one pair after another, its state passed on from call to call,
and the first call without a cost is the last one; without such a call every answer is stored where
its pair is. Where there is no room, nothing is read and nothing called. -/
theorem readsRows_and_callsInOrder :
    (∀ {α β : Type} (cost? : β → Option α) (rows : List (List β)), ReadsRows cost? rows) ∧
    ∀ {α β γ σ : Type} (cost? : β → γ → StateM σ (Option α)) (agents : List β) (tasks : List γ)
      (before : σ), CallsInOrder cost? agents tasks before := by
  constructor
  · intro α β cost? rows
    refine ⟨exists_ofRows_eq_ok_iff, fun matrix h => ?_,
      fun hroom outcome => ofRows_eq_error_iff hroom, ofRows_of_oversized⟩
    obtain ⟨costs, -, hmatrix⟩ := exists_costs_of_ofRows h
    refine ⟨by rw [hmatrix], by rw [hmatrix], fun row entries col entry hrow hcol => ?_⟩
    exact get?_of_ofRows h hrow hcol
  · intro α β γ σ cost? agents tasks before
    exact ⟨run_ofFunction_of_isSome, fun hroom row col => run_ofFunction_of_none hroom,
      run_ofFunction_of_oversized cost? before⟩

def notedCost (agent task : Nat) : StateM (List (Nat × Nat)) (Option Nat) := fun calls =>
  (if agent * task = 6 then none else some (agent + task), calls ++ [(agent, task)])

/-- A row with two faults, one with a fault above a row of another length, and a call without an
answer, after which there are no more calls. -/
theorem readsRows_and_callsInOrder_noted :
    ofRows id [[some 1, some 2], [none]] = .error (.refused (.raggedMatrix 1 2 1)) ∧
    ofRows id [[some 1, some 2], [some 3, none], [some 4]] =
      .error (.refused (.unrepresentableCost 1 1)) ∧
    (ofFunction notedCost [1, 2, 3] [4, 3]).run [] =
      (.error (.refused (.unrepresentableCost 1 1)), [(1, 4), (1, 3), (2, 4), (2, 3)]) := by
  obtain ⟨hrows, hcalls⟩ := readsRows_and_callsInOrder
  refine ⟨((hrows _ _).error_iff (by decide) _).mpr ⟨_, rfl, 1, _, rfl, .ragged (by decide), ?_⟩,
    ((hrows _ _).error_iff (by decide) _).mpr ⟨_, rfl, 1, _, rfl, .unrepresentable rfl rfl rfl ?_, ?_⟩,
    (hcalls notedCost [1, 2, 3] [4, 3] []).of_none (by decide) 1 1 rfl ?_⟩
  · simp [IsReadable, widthOf]
  · simp
  · simp [IsReadable, widthOf]
  · decide

noncomputable def endlessRows : List (List Nat) :=
  List.replicate cellLimit [0]

noncomputable def crowd : List Unit :=
  List.replicate sideLimit ()

def silentCost (_ _ : Unit) : StateM Nat (Option Nat) := fun calls =>
  (none, calls + 1)

/-- Rows that are all readable make no matrix, and the first of the calls without an answer is not
made, when there is no room. -/
theorem ofRows_endlessRows_and_run_crowd :
    (∀ entries ∈ endlessRows, IsReadable some (widthOf endlessRows) entries) ∧
    ofRows some endlessRows = .error (.faulted .oversized) ∧
    crowd ≠ [] ∧ (∀ row col, callAnswer silentCost crowd crowd 0 row col = none) ∧
    (ofFunction silentCost crowd crowd).run 0 = (.error (.faulted .oversized), 0) := by
  have hwidth : widthOf endlessRows = 1 := by
    rw [widthOf, endlessRows, List.head?_replicate, if_neg (by decide)]
    rfl
  have hrows : endlessRows.length * widthOf endlessRows = cellLimit := by
    rw [hwidth, Nat.mul_one, endlessRows, List.length_replicate]
  have hcrowd : crowd.length = sideLimit := List.length_replicate
  have hpairs : crowd.length * crowd.length = cellLimit := by
    rw [hcrowd]
    decide
  have hne : crowd ≠ [] := List.ne_nil_of_length_pos (hcrowd ▸ by decide)
  refine ⟨fun entries hentries => ?_, ofRows_of_oversized (hrows ▸ by decide) hrows.ge, hne,
    fun _ _ => rfl,
    run_ofFunction_of_oversized silentCost 0 hne hne (hpairs ▸ by decide) hpairs.ge⟩
  obtain rfl := List.eq_of_mem_replicate hentries
  exact ⟨hwidth.symm, fun entry _ => rfl⟩

end CostMatrix

end Hungarian
