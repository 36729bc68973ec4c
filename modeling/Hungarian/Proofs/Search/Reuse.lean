import Hungarian.Arithmetic.Double
import Hungarian.Proofs.Search.Steps

/-!
# Searches that take over an old tree

A search plants its tree anew, but a column that the root does not reach below the ceiling keeps the
parent that it had in the tree of an earlier search. The steps of a search read no parents, only the
way back does. So an old tree never shows in the steps of a search or in what they do to the
potentials, and it does not show in the path either when the root reaches every column.
-/

namespace Hungarian

open CostArithmetic

variable {α : Type} {size : Nat}

namespace Tree

structure Resembles (tree other : Tree α size) : Prop where
  rows_eq : tree.rows = other.rows
  cols_eq : tree.cols = other.cols
  slack_eq : tree.slack = other.slack
  moves_eq : tree.moves = other.moves

theorem Resembles.refl (tree : Tree α size) : tree.Resembles tree :=
  ⟨rfl, rfl, rfl, rfl⟩

section Growth

variable {tree other : Tree α size} (h : tree.Resembles other)

include h

theorem Resembles.tightenings_eq : tree.tightenings = other.tightenings :=
  congrArg (fun moves => { tree with moves }.tightenings) h.moves_eq

theorem Resembles.reach (col : Fin size) : (tree.reach col).Resembles (other.reach col) where
  rows_eq := h.rows_eq
  cols_eq := congrArg (fun cols => cols.set col true col.isLt) h.cols_eq
  slack_eq := h.slack_eq
  moves_eq := congrArg (· ++ [Move.reach col]) h.moves_eq

variable [CostArithmetic α]

theorem Resembles.closest?_eq : tree.closest? = other.closest? := by
  have hcloser : tree.closer = other.closer := by
    funext best col
    unfold closer
    rw [h.cols_eq, h.slack_eq]
  rw [closest?, closest?, hcloser]

theorem Resembles.enter (problem : Problem α size) (potentials : Potentials α size)
    (row : Fin size) :
    (tree.enter problem potentials row).Resembles (other.enter problem potentials row) where
  rows_eq := congrArg (fun rows => rows.set row true row.isLt) h.rows_eq
  cols_eq := h.cols_eq
  slack_eq := by
    have himproves : tree.improves problem potentials row =
        other.improves problem potentials row := by
      funext col
      rw [improves, improves, h.cols_eq, h.slack_eq]
    rw [Tree.enter, Tree.enter, himproves, h.slack_eq]
  moves_eq := h.moves_eq

theorem Resembles.tighten (delta : α) : (tree.tighten delta).Resembles (other.tighten delta) where
  rows_eq := h.rows_eq
  cols_eq := h.cols_eq
  slack_eq := by rw [Tree.tighten, Tree.tighten, h.cols_eq, h.slack_eq]
  moves_eq := congrArg (· ++ [Move.tighten delta]) h.moves_eq

end Growth

variable [CostArithmetic α] {problem : Problem α size} {potentials : Potentials α size}
  {root : Fin size}

/-- Planting clears everything but the parents. -/
theorem resembles_plant (problem : Problem α size) (potentials : Potentials α size)
    (tree other : Tree α size) (root : Fin size) :
    (plant problem potentials tree root).Resembles (plant problem potentials other root) :=
  ⟨rfl, rfl, rfl, rfl⟩

/-- A root that reaches every column below the ceiling is the parent of them all. -/
theorem plant_eq_plant
    (hbelow : ∀ col, belowCeiling (potentials.reducedCost problem root col) = true)
    (tree other : Tree α size) :
    plant problem potentials tree root = plant problem potentials other root := by
  simp only [plant, hbelow, if_true]

end Tree

namespace Search

structure State.Resembles (state other : State α size) : Prop where
  tree : state.tree.Resembles other.tree
  potentials_eq : state.potentials = other.potentials

inductive Progress.Resembles : Progress α size → Progress α size → Prop
  | grows {state other : State α size} (h : state.Resembles other) :
      Resembles (.grows state) (.grows other)
  | arrives {state other : State α size} {col : Fin size} (h : state.Resembles other) :
      Resembles (.arrives col state) (.arrives col other)
  | breaks {state other : State α size} {error : SearchError} (h : state.Resembles other) :
      Resembles (.breaks error state) (.breaks error other)

variable [CostArithmetic α] {problem : Problem α size} {matching : Matching size} {root : Fin size}
  {state other : State α size}

/-- No step reads a parent. -/
theorem State.Resembles.advance (problem : Problem α size) (matching : Matching size)
    (h : state.Resembles other) :
    (advance problem matching state).Resembles (advance problem matching other) := by
  rw [Search.advance, Search.advance, h.tree.closest?_eq]
  cases other.tree.closest? with
  | none => exact .breaks h
  | some col =>
      dsimp only
      rw [h.tree.slack_eq]
      by_cases hfar : problem.epsilon < other.tree.slack.get col
      · rw [if_pos hfar, if_pos hfar]
        refine .grows ⟨h.tree.tighten _, ?_⟩
        rw [State.tighten, State.tighten, h.tree.rows_eq, h.tree.cols_eq, h.potentials_eq]
      · have hreach : (state.reach col).Resembles (other.reach col) :=
          ⟨h.tree.reach col, h.potentials_eq⟩
        rw [if_neg hfar, if_neg hfar, State.join, State.join]
        cases matching.rowOf col with
        | none => exact .arrives hreach
        | some row =>
            dsimp only
            rw [hreach.tree.rows_eq]
            by_cases hvisited : (other.reach col).tree.rows.get row = true
            · rw [if_pos hvisited, if_pos hvisited]
              exact .breaks hreach
            · rw [if_neg hvisited, if_neg hvisited]
              refine .grows ⟨?_, hreach.potentials_eq⟩
              rw [State.enter, State.enter, hreach.potentials_eq]
              exact hreach.tree.enter problem _ row

theorem State.Resembles.explore (problem : Problem α size) (matching : Matching size)
    (h : state.Resembles other) (steps : Nat) :
    (explore problem matching steps state).1.Resembles (explore problem matching steps other).1 ∧
      (explore problem matching steps state).2 = (explore problem matching steps other).2 := by
  induction steps generalizing state other with
  | zero => exact ⟨h, rfl⟩
  | succ steps ih =>
      rw [Search.explore, Search.explore]
      have hadvance := h.advance problem matching
      generalize Search.advance problem matching state = progress at hadvance ⊢
      generalize Search.advance problem matching other = twin at hadvance ⊢
      cases hadvance with
      | grows hnext => exact ih hnext
      | arrives hlast => exact ⟨hlast, rfl⟩
      | breaks hlast => exact ⟨hlast, rfl⟩

/-- **An old tree shows in the path alone.** Whatever tree a search from a free row finds, it ends
with the same rows, columns, slacks and moves, and with the same potentials. -/
theorem resembles_run (problem : Problem α size) (hroot : matching.colOf root = none)
    (potentials : Potentials α size) (tree other : Tree α size) :
    (run problem matching { tree, potentials } root).1.Resembles
      (run problem matching { tree := other, potentials } root).1 := by
  have hplant : (State.plant problem { tree, potentials } root).Resembles
      (State.plant problem { tree := other, potentials } root) :=
    ⟨Tree.resembles_plant problem potentials tree other root, rfl⟩
  obtain ⟨hlast, hending⟩ := hplant.explore problem matching (2 * size + 1)
  rcases hexplore : explore problem matching (2 * size + 1)
    (State.plant problem { tree, potentials } root) with ⟨last, ending⟩
  rcases htwin : explore problem matching (2 * size + 1)
    (State.plant problem { tree := other, potentials } root) with ⟨twin, same⟩
  rw [hexplore, htwin] at hlast hending
  obtain rfl : ending = same := hending
  cases ending with
  | error =>
      rw [run_of_broken hroot hexplore, run_of_broken hroot htwin]
      exact hlast
  | ok =>
      rw [run_of_arrived hroot hexplore, run_of_arrived hroot htwin]
      exact hlast

def pairProblem : Problem Float 2 where
  rows := 2
  cols := 2
  costs := ⟨#v[#v[4, 1], #v[2, 3]]⟩
  forbidden := .ofFn fun _ _ => false
  sentinel := 11
  epsilon := 0

/-- At an infinite distance an old parent stays, and leads nowhere. -/
example :
    let potentials : Potentials Float 2 := { rows := #v[-Double.infinity, 0], cols := #v[0, 0] }
    let old : Tree Float 2 := { (.blank : Tree Float 2) with parent := #v[1, 1] }
    (run pairProblem (.empty 2) { tree := old, potentials } 0).2 = .error .unmatchedTreeRow ∧
      (run pairProblem (.empty 2) { tree := .blank, potentials } 0).2 = .ok [(0, 0)] := by
  decide +kernel

/-- A search of a caller that keeps the tree, but brings a matching and potentials of its own. -/
structure Call (α : Type) (size : Nat) where
  matching : Matching size
  potentials : Potentials α size
  root : Fin size

structure Outcome (α : Type) (size : Nat) where
  answer : Except SearchError (Path size)
  potentials : Potentials α size
  tightenings : Nat
  rows : Vector Bool size
  cols : Vector Bool size

namespace Call

def isFree (call : Call α size) : Bool :=
  (call.matching.colOf call.root).isNone

def run (problem : Problem α size) (call : Call α size) (tree : Tree α size) :
    State α size × Except SearchError (Path size) :=
  Search.run problem call.matching { tree, potentials := call.potentials } call.root

def outcome (problem : Problem α size) (call : Call α size) (tree : Tree α size) :
    Outcome α size :=
  let (last, answer) := call.run problem tree
  { answer
    potentials := last.potentials
    tightenings := last.tree.tightenings
    rows := last.tree.rows
    cols := last.tree.cols }

end Call

/-- The tree that is left after a number of searches, the first of which finds a blank one. -/
def treeAfter (problem : Problem α size) (calls : List (Call α size)) : Tree α size :=
  calls.foldl (fun tree call => (call.run problem tree).1.tree) .blank

/-- The tree of the last call from a free row, as that call alone leaves it. -/
def lastTree (problem : Problem α size) (calls : List (Call α size)) : Tree α size :=
  (calls.reverse.find? Call.isFree).elim .blank fun call => (call.run problem .blank).1.tree

variable {call : Call α size}

theorem Call.run_of_isFree_eq_false (h : call.isFree = false) (tree : Tree α size) :
    call.run problem tree = ({ tree, potentials := call.potentials }, .error .matchedRoot) := by
  rw [Call.isFree, Option.isNone_eq_false_iff] at h
  exact if_pos h

theorem Call.run_eq_run (h : call.isFree = true) {tree other : Tree α size}
    (hplant : tree.plant problem call.potentials call.root =
      other.plant problem call.potentials call.root) :
    call.run problem tree = call.run problem other := by
  have hstate : State.plant problem { tree, potentials := call.potentials } call.root =
      State.plant problem { tree := other, potentials := call.potentials } call.root :=
    congrArg (State.mk · call.potentials) hplant
  rw [Call.run, Call.run, Search.run, Search.run, hstate, Option.isNone_iff_eq_none.mp h]
  rfl

/-- **Only the last search shows.** Calls from matched rows leave the tree as it is, and of the calls
before the last search nothing is left but parents. -/
theorem resembles_treeAfter (problem : Problem α size) (calls : List (Call α size)) :
    (treeAfter problem calls).Resembles (lastTree problem calls) := by
  induction calls using List.reverseRecOn with
  | nil => exact .refl _
  | append_singleton calls call ih =>
      have hlast : treeAfter problem (calls ++ [call]) =
          (call.run problem (treeAfter problem calls)).1.tree := by
        rw [treeAfter, List.foldl_append]
        rfl
      rw [hlast, lastTree, List.reverse_concat, List.find?_cons]
      cases hfree : call.isFree with
      | true => exact (resembles_run problem (Option.isNone_iff_eq_none.mp hfree) _ _ _).tree
      | false =>
          rw [Call.run_of_isFree_eq_false hfree]
          exact ih

/-- **A tree that is used again carries nothing over.** A call that reaches every column below the
ceiling has the same answer after any other calls as on a blank tree and leaves the same potentials.
From a free row nothing else differs either; a call from a matched row is refused, and still shows
the last search before it. -/
theorem outcome_treeAfter
    (hbelow : ∀ col, belowCeiling (call.potentials.reducedCost problem call.root col) = true)
    (calls : List (Call α size)) :
    call.outcome problem (treeAfter problem calls) =
      if call.isFree then call.outcome problem .blank
      else { call.outcome problem .blank with
        tightenings := (lastTree problem calls).tightenings
        rows := (lastTree problem calls).rows
        cols := (lastTree problem calls).cols } := by
  cases hfree : call.isFree with
  | true =>
      have hplant := Tree.plant_eq_plant hbelow (treeAfter problem calls) .blank
      rw [if_pos rfl, Call.outcome, Call.run_eq_run hfree hplant, ← Call.outcome]
  | false =>
      have hlast := resembles_treeAfter problem calls
      rw [if_neg Bool.false_ne_true, Call.outcome, Call.outcome,
        Call.run_of_isFree_eq_false hfree, Call.run_of_isFree_eq_false hfree,
        ← hlast.tightenings_eq, ← hlast.rows_eq, ← hlast.cols_eq]

def openCall (root : Fin 2) : Call Float 2 where
  matching := .empty 2
  potentials := { rows := #v[0, 0], cols := #v[0, 0] }
  root

def lateCall (root : Fin 2) : Call Float 2 where
  matching := {
    cols := .ofFn fun row => if row.val = 1 then some row else none
    rows := .ofFn fun col => if col.val = 1 then some col else none }
  potentials := { rows := #v[1, 2], cols := #v[0, 0] }
  root

/-- The first call leaves the last row as the parent of both columns, and the second call is
refused. -/
theorem outcome_lateCall_free :
    (∀ col, belowCeiling ((lateCall 0).potentials.reducedCost pairProblem 0 col) = true) ∧
    (lateCall 0).isFree = true ∧
    (treeAfter pairProblem [openCall 1, lateCall 1]).parent = #v[1, 1] ∧
    ((lateCall 0).outcome pairProblem .blank).answer = .ok [(0, 1), (1, 0)] ∧
    (lateCall 0).outcome pairProblem (treeAfter pairProblem [openCall 1, lateCall 1]) =
      (lateCall 0).outcome pairProblem .blank := by
  have hbelow : ∀ col,
      belowCeiling ((lateCall 0).potentials.reducedCost pairProblem 0 col) = true := by
    decide +kernel
  have hfree : (lateCall 0).isFree = true := by decide
  have hanswer : ((lateCall 0).outcome pairProblem .blank).answer = .ok [(0, 1), (1, 0)] := by
    decide +kernel
  refine ⟨hbelow, hfree, by decide +kernel, hanswer, ?_⟩
  exact (outcome_treeAfter hbelow [openCall 1, lateCall 1]).trans (if_pos hfree)

/-- The refused call reaches both columns too, but it shows the call before it, and on a blank tree
none at all. -/
theorem outcome_lateCall_matched :
    (∀ col, belowCeiling ((lateCall 1).potentials.reducedCost pairProblem 1 col) = true) ∧
    (lateCall 1).outcome pairProblem (treeAfter pairProblem [openCall 1]) ≠
      (lateCall 1).outcome pairProblem .blank := by
  refine ⟨by decide +kernel, fun heq => ?_⟩
  have htightenings := congrArg Outcome.tightenings heq
  revert htightenings
  decide +kernel

end Search

end Hungarian
