import Mathlib.Data.List.Forall2
import Mathlib.Data.List.ProdSigma
import Mathlib.Tactic.Ring

/-!
# Scans that stop at the first fault

A scan computes a result for each entry of a list and stops at the first entry that has none. Told
in `Except` it either gives a result for every entry or fails as the first faulty entry does. Where
the computation is a call that passes a state on, the state at the end tells how many calls were
made.
-/

namespace Hungarian

variable {α β γ σ ε ι : Type}

/-! ### Scans without a state -/

section Scan

variable {scan : β × Nat → Except ε γ} {gives : β → γ → Prop} {entries : List β} {results : List γ}
  {failure : ε} {start : Nat}

/-- A scan fails at its first entry, or it gives something for that and fails after it. -/
theorem mapM_cons_eq_error_iff {scan : β → Except ε γ} {entry : β} {rest : List β} :
    (entry :: rest).mapM scan = .error failure ↔
      scan entry = .error failure ∨
        (∃ result, scan entry = .ok result) ∧ rest.mapM scan = .error failure := by
  rw [List.mapM_cons]
  cases scan entry with
  | error other => simp [bind, Except.bind]
  | ok result =>
      cases rest.mapM scan with
      | error other => simp [bind, Except.bind]
      | ok others => simp [bind, Except.bind, pure, Except.pure]

/-- What a scan gives for an entry does not depend on its place, which only a failure may tell. -/
def Scans (scan : β × Nat → Except ε γ) (gives : β → γ → Prop) : Prop :=
  ∀ entry index result, scan (entry, index) = .ok result ↔ gives entry result

variable (hscan : Scans scan gives)

include hscan

theorem Scans.mapM_zipIdx_eq_ok_iff :
    (entries.zipIdx start).mapM scan = .ok results ↔ List.Forall₂ gives entries results := by
  induction entries generalizing start results with
  | nil => simp [pure, Except.pure, eq_comm]
  | cons entry rest ih =>
      rw [List.zipIdx_cons, List.mapM_cons, List.forall₂_cons_left_iff]
      simp only [← hscan entry start, ← @ih _ (start + 1)]
      cases scan (entry, start) with
      | error failure => simp [bind, Except.bind]
      | ok result =>
          cases (rest.zipIdx (start + 1)).mapM scan with
          | error failure => simp [bind, Except.bind]
          | ok others => simp [bind, Except.bind, pure, Except.pure, eq_comm]

/-- A failure is that of the first entry for which nothing is given. -/
theorem Scans.mapM_zipIdx_eq_error_iff :
    (entries.zipIdx start).mapM scan = .error failure ↔
      ∃ index entry, entries[index]? = some entry ∧ scan (entry, start + index) = .error failure ∧
        ∀ earlier ∈ entries.take index, ∃ result, gives earlier result := by
  induction entries generalizing start with
  | nil => simp [pure, Except.pure]
  | cons entry rest ih =>
      rw [List.zipIdx_cons, mapM_cons_eq_error_iff, ih]
      constructor
      · rintro (hfailure | ⟨⟨result, hresult⟩, index, found, hfound, hfailure, hearlier⟩)
        · exact ⟨0, entry, rfl, hfailure, by simp⟩
        · refine ⟨index + 1, found, hfound, ?_, ?_⟩
          · rwa [← Nat.add_assoc, Nat.add_right_comm]
          · rw [List.take_succ_cons, List.forall_mem_cons]
            exact ⟨⟨result, (hscan entry start result).mp hresult⟩, hearlier⟩
      · rintro ⟨index, found, hfound, hfailure, hearlier⟩
        cases index with
        | zero =>
            obtain rfl := Option.some.inj hfound
            exact .inl hfailure
        | succ index =>
            rw [List.take_succ_cons, List.forall_mem_cons] at hearlier
            obtain ⟨⟨result, hresult⟩, hrest⟩ := hearlier
            refine .inr ⟨⟨result, (hscan entry start result).mpr hresult⟩, index, found, hfound, ?_,
              hrest⟩
            rwa [Nat.add_assoc, Nat.add_comm 1]

end Scan

theorem exists_forall₂_iff {relates : β → γ → Prop} {entries : List β} :
    (∃ results, List.Forall₂ relates entries results) ↔
      ∀ entry ∈ entries, ∃ result, relates entry result := by
  induction entries with
  | nil => simp
  | cons entry rest ih =>
      rw [List.forall_mem_cons, ← ih]
      constructor
      · rintro ⟨results, hall⟩
        obtain ⟨result, others, hentry, hrest, -⟩ := List.forall₂_cons_left_iff.mp hall
        exact ⟨⟨result, hentry⟩, others, hrest⟩
      · rintro ⟨⟨result, hentry⟩, others, hrest⟩
        exact ⟨result :: others, .cons hentry hrest⟩

/-- A scan without a reason for its failure. -/
theorem mapM_eq_some_iff {scan : β → Option γ} {entries : List β} {results : List γ} :
    entries.mapM scan = some results ↔
      List.Forall₂ (fun entry result => scan entry = some result) entries results := by
  induction entries generalizing results with
  | nil => simp [eq_comm]
  | cons entry rest ih =>
      rw [List.mapM_cons, List.forall₂_cons_left_iff]
      simp only [← ih]
      cases scan entry with
      | none => simp
      | some result =>
          cases rest.mapM scan with
          | none => simp
          | some others => simp [eq_comm]

theorem exists_getElem?_of_forall₂ {relates : β → γ → Prop} {entries : List β} {results : List γ}
    (h : List.Forall₂ relates entries results) {index : Nat} {entry : β}
    (hentry : entries[index]? = some entry) :
    ∃ result, results[index]? = some result ∧ relates entry result := by
  induction h generalizing index with
  | nil => cases hentry
  | cons hfirst _ ih =>
      cases index with
      | zero =>
          obtain rfl := Option.some.inj hentry
          exact ⟨_, rfl, hfirst⟩
      | succ index => exact ih hentry

/-- The place of a cell in the list of all rows, where these are of one width. -/
theorem getElem?_flatten_of_forall {rows : List (List α)} {width row col : Nat}
    (h : ∀ entries ∈ rows, entries.length = width) (hcol : col < width) :
    rows.flatten[row * width + col]? = rows[row]?.bind fun entries => entries[col]? := by
  induction rows generalizing row with
  | nil => simp
  | cons first rest ih =>
      obtain ⟨hfirst, hrest⟩ := List.forall_mem_cons.mp h
      rw [List.flatten_cons]
      cases row with
      | zero =>
          rw [Nat.zero_mul, Nat.zero_add, List.getElem?_append_left (hfirst ▸ hcol)]
          rfl
      | succ row =>
          have hplace : (row + 1) * width + col = first.length + (row * width + col) := by
            rw [hfirst]
            ring
          rw [hplace, List.getElem?_append_right (Nat.le_add_right _ _), Nat.add_sub_cancel_left,
            ih hrest]
          rfl

/-- The place of a pair in the list of all pairs. -/
theorem getElem?_product {entries : List β} {others : List γ} {row col : Nat}
    (hcol : col < others.length) : (entries ×ˢ others)[row * others.length + col]? =
      entries[row]?.map fun entry => (entry, others[col]) := by
  have hwide : ∀ pairs ∈ entries.map fun entry => others.map (entry, ·),
      pairs.length = others.length := by
    intro pairs hpairs
    obtain ⟨entry, -, rfl⟩ := List.mem_map.mp hpairs
    exact List.length_map _
  change (entries.map fun entry => others.map (entry, ·)).flatten[_]? = _
  rw [getElem?_flatten_of_forall hwide hcol, List.getElem?_map]
  cases entries[row]? with
  | none => rfl
  | some entry => simp [hcol]

/-- Two nested scans are one scan of all pairs. -/
theorem flatten_mapM_mapM {m : Type → Type} [Monad m] [LawfulMonad m] (scan : β × γ → m α)
    (entries : List β) (others : List γ) :
    List.flatten <$> entries.mapM (fun entry => others.mapM fun other => scan (entry, other)) =
      (entries ×ˢ others).mapM scan := by
  induction entries with
  | nil => simp
  | cons entry rest ih =>
      rw [List.mapM_cons, List.product_cons, List.mapM_append, ← ih]
      simp [List.mapM_map, Function.comp_def]

/-! ### Calls that pass a state on -/

section Run

variable {computation : ExceptT ε (StateM σ) β} {before after : σ} {result : β} {failure : ε}
  {outcome : Except ε β}

theorem run_bind_of_ok (h : computation.run before = (.ok result, after))
    (next : β → ExceptT ε (StateM σ) γ) :
    (computation >>= next).run before = (next result).run after := by
  rw [ExceptT.run_bind]
  simp only [bind, StateT.bind, h]

theorem run_bind_of_error (h : computation.run before = (.error failure, after))
    (next : β → ExceptT ε (StateM σ) γ) :
    (computation >>= next).run before = (.error failure, after) := by
  rw [ExceptT.run_bind]
  simp only [bind, StateT.bind, h]
  rfl

theorem run_map (h : computation.run before = (outcome, after)) (f : β → γ) :
    (f <$> computation).run before = (outcome.map f, after) := by
  rw [ExceptT.run_map]
  exact congrArg (fun answer => (answer.1.map f, answer.2)) h

end Run

section Calls

variable (answer? : ι → StateM σ (Option α)) (fault : ι → ε)

def ask (entry : ι) : ExceptT ε (StateM σ) α := do
  match ← (answer? entry : StateM σ (Option α)) with
  | some cost => return cost
  | none => throw (fault entry)

def stateAfter (entries : List ι) (before : σ) (calls : Nat) : σ :=
  (entries.take calls).foldl (fun state entry => (answer? entry state).2) before

def answerAt (entries : List ι) (before : σ) (call : Nat) : Option α :=
  entries[call]?.bind fun entry => (answer? entry (stateAfter answer? entries before call)).1

variable {answer? fault} {entry : ι} {entries rest : List ι} {before after : σ}
  {answer : Option α} {cost : α} {call : Nat}

theorem run_call (h : answer? entry before = (answer, after)) :
    (answer? entry : ExceptT ε (StateM σ) (Option α)).run before = (.ok answer, after) := by
  change (Except.ok (answer? entry before).1, (answer? entry before).2) = _
  rw [h]

theorem run_ask_of_some (h : answer? entry before = (some cost, after)) :
    (ask answer? fault entry).run before = (.ok cost, after) :=
  run_bind_of_ok (run_call h) _

theorem run_ask_of_none (h : answer? entry before = (none, after)) :
    (ask answer? fault entry).run before = (.error (fault entry), after) :=
  run_bind_of_ok (run_call h) _

theorem stateAfter_cons_succ (h : answer? entry before = (answer, after)) (calls : Nat) :
    stateAfter answer? (entry :: rest) before (calls + 1) =
      stateAfter answer? rest after calls := by
  rw [stateAfter, List.take_succ_cons, List.foldl_cons, h, stateAfter]

theorem answerAt_cons_zero :
    answerAt answer? (entry :: rest) before 0 = (answer? entry before).1 := rfl

theorem answerAt_cons_succ (h : answer? entry before = (answer, after)) (call : Nat) :
    answerAt answer? (entry :: rest) before (call + 1) = answerAt answer? rest after call := by
  rw [answerAt, List.getElem?_cons_succ, stateAfter_cons_succ h, answerAt]

/-- A scan in which every call is answered gives all answers. -/
theorem run_mapM_ask_of_isSome (fault : ι → ε)
    (h : ∀ call < entries.length, (answerAt answer? entries before call).isSome) :
    ∃ costs, (entries.mapM (ask answer? fault)).run before =
        (.ok costs, stateAfter answer? entries before entries.length) ∧
      ∀ call, costs[call]? = answerAt answer? entries before call := by
  induction entries generalizing before with
  | nil => exact ⟨[], rfl, fun call => by simp [answerAt]⟩
  | cons entry rest ih =>
      rcases hcall : answer? entry before with ⟨answer, after⟩
      have hfirst := h 0 (Nat.succ_pos _)
      rw [answerAt_cons_zero, hcall] at hfirst
      obtain ⟨cost, rfl⟩ := Option.isSome_iff_exists.mp hfirst
      have hrest : ∀ call < rest.length, (answerAt answer? rest after call).isSome := by
        intro call hlt
        rw [← answerAt_cons_succ hcall]
        exact h (call + 1) (Nat.succ_lt_succ hlt)
      obtain ⟨costs, hrun, hcosts⟩ := ih hrest
      refine ⟨cost :: costs, ?_, ?_⟩
      · rw [List.mapM_cons, run_bind_of_ok (run_ask_of_some hcall), run_bind_of_ok hrun,
          List.length_cons, stateAfter_cons_succ hcall]
        rfl
      · intro call
        cases call with
        | zero =>
            rw [answerAt_cons_zero, hcall]
            rfl
        | succ call =>
            rw [answerAt_cons_succ hcall, ← hcosts]
            rfl

/-- A scan fails at the first call without an answer, which is its last one. -/
theorem run_mapM_ask_of_none (fault : ι → ε) (hentry : entries[call]? = some entry)
    (hnone : answerAt answer? entries before call = none)
    (hearlier : ∀ earlier < call, (answerAt answer? entries before earlier).isSome) :
    (entries.mapM (ask answer? fault)).run before =
      (.error (fault entry), stateAfter answer? entries before (call + 1)) := by
  induction entries generalizing before call with
  | nil => cases hentry
  | cons first rest ih =>
      rcases hcall : answer? first before with ⟨answer, after⟩
      rw [List.mapM_cons, stateAfter_cons_succ hcall]
      cases call with
      | zero =>
          obtain rfl := Option.some.inj hentry
          rw [answerAt_cons_zero, hcall] at hnone
          obtain rfl : answer = none := hnone
          exact run_bind_of_error (run_ask_of_none hcall) _
      | succ call =>
          have hfirst := hearlier 0 (Nat.succ_pos _)
          rw [answerAt_cons_zero, hcall] at hfirst
          obtain ⟨cost, rfl⟩ := Option.isSome_iff_exists.mp hfirst
          rw [answerAt_cons_succ hcall] at hnone
          have hrest : ∀ earlier < call, (answerAt answer? rest after earlier).isSome := by
            intro earlier hlt
            rw [← answerAt_cons_succ hcall]
            exact hearlier (earlier + 1) (Nat.succ_lt_succ hlt)
          rw [run_bind_of_ok (run_ask_of_some hcall), run_bind_of_error (ih hentry hnone hrest)]

end Calls

end Hungarian
