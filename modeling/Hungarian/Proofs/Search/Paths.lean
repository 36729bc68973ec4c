import Mathlib.Data.Fintype.Card
import Hungarian.Arithmetic.Double
import Hungarian.Proofs.Search.Steps

/-!
# The paths of searches

The way back from a free column is cut off at as many cells as there are columns. Nothing else keeps
it from going round, for the parents may stem from earlier searches and the matching may contradict
itself. The bound is exact all the same: a way back that comes to the root is never longer, so that
a search returns a path where its parents describe one, and each such path is an augmenting path.
-/

namespace Hungarian

variable {α : Type} {size : Nat} {matching : Matching size} {root col : Fin size}
  {path : Path size}

namespace Tree

variable {tree : Tree α size}

theorem LeadsBack.length_le (h : tree.LeadsBack matching root col path) : path.length ≤ size := by
  have hlength := h.rows_nodup.length_le_card
  rwa [List.length_map, Fintype.card_fin] at hlength

/-- The way back takes one step less than it has cells. -/
theorem LeadsBack.traceBack_eq {steps : Nat} (h : tree.LeadsBack matching root col path)
    (hsteps : path.length ≤ steps + 1) (rest : Path size) :
    tree.traceBack matching root steps col rest = .ok (path ++ rest) := by
  induction h generalizing steps rest with
  | @arrive col harrive =>
      have hcell : (root, col) :: rest = (tree.parent.get col, col) :: rest := by rw [harrive]
      cases steps <;> exact (if_pos harrive).trans (congrArg Except.ok hcell.symm)
  | @pass col next path hpass hnext hpath ih =>
      obtain ⟨front, hfront⟩ := hpath.exists_eq_concat
      rw [List.length_append, List.length_singleton] at hsteps
      cases steps with
      | zero =>
          rw [hfront, List.length_append, List.length_singleton] at hsteps
          omega
      | succ steps =>
          rw [traceBack, if_neg hpass, hnext]
          dsimp only
          rw [ih (Nat.le_of_succ_le_succ hsteps), List.append_assoc, List.singleton_append]

/-- No way back to the root is refused for its length. -/
theorem traceBack_eq_ok_iff :
    tree.traceBack matching root size col [] = .ok path ↔
      tree.LeadsBack matching root col path := by
  constructor
  · intro h
    obtain ⟨front, hfront, hpath⟩ := leadsBack_of_traceBack h
    rw [List.append_nil] at hpath
    exact hpath ▸ hfront
  · intro h
    rw [h.traceBack_eq (h.length_le.trans (Nat.le_succ size)), List.append_nil]

end Tree

namespace Search

variable [CostArithmetic α] {problem : Problem α size} {state last : State α size}

/-- A search returns the way back from the free column that it meets, where there is one. -/
theorem run_eq_ok_iff : run problem matching state root = (last, .ok path) ↔
    matching.colOf root = none ∧ ∃ col,
      explore problem matching (2 * size + 1) (state.plant problem root) = (last, .ok col) ∧
      last.tree.LeadsBack matching root col path := by
  constructor
  · intro h
    obtain ⟨hroot, col, hexplore, htrace⟩ := exists_explore_of_run h
    exact ⟨hroot, col, hexplore, Tree.traceBack_eq_ok_iff.mp htrace⟩
  · rintro ⟨hroot, col, hexplore, hpath⟩
    rw [run_of_arrived hroot hexplore, Tree.traceBack_eq_ok_iff.mpr hpath]

/-- **Every path is an augmenting path.** Whatever the arithmetic, the matching, the potentials and
the tree before: it leads from the root, which is free, to a free column, its cells are linked by
matched cells, it meets no row and no column twice, and it has at most as many cells as there are
columns. -/
theorem augments_and_length_le_of_run (h : run problem matching state root = (last, .ok path)) :
    matching.Augments path ∧ path.head?.map Prod.fst = some root ∧ path.length ≤ size := by
  obtain ⟨hroot, col, hexplore, hpath⟩ := run_eq_ok_iff.mp h
  obtain ⟨middle, -, harrives⟩ := exists_steps_of_explore hexplore
  exact ⟨hpath.augments hroot harrives.free, hpath.head?_eq, hpath.length_le⟩

def idleProblem : Problem Float 4 where
  rows := 4
  cols := 4
  costs := .ofFn fun _ _ => 0
  forbidden := .ofFn fun _ _ => false
  sentinel := 1
  epsilon := 0

def crossedMatching : Matching 4 where
  cols := #v[none, some 0, some 1, some 2]
  rows := #v[some 3, some 2, some 1, none]

/-- The root reaches no column, so that all parents stay those of an earlier tree. -/
def staleState : State Float 4 where
  tree := { (Tree.blank : Tree Float 4) with parent := #v[0, 1, 2, 3] }
  potentials := {
    rows := #v[Double.infinity - Double.infinity, 0, Double.infinity, -Double.infinity]
    cols := #v[0, -Double.infinity, 0, Double.infinity] }

/-- The path has as many cells as there are columns, and none of its parents is of its own search. -/
theorem augments_run_stale : ¬crossedMatching.Consistent ∧
    (run idleProblem crossedMatching staleState 0).2 = .ok [(0, 0), (1, 1), (2, 2), (3, 3)] ∧
    crossedMatching.Augments [(0, 0), (1, 1), (2, 2), (3, 3)] ∧
    ([(0, 0), (1, 1), (2, 2), (3, 3)] : Path 4).head?.map Prod.fst = some 0 ∧
    ([(0, 0), (1, 1), (2, 2), (3, 3)] : Path 4).length ≤ 4 := by
  have hcrossed : ¬crossedMatching.Consistent := fun h =>
    absurd ((h 1 0).mp (by decide)) (by decide)
  have hpath : (run idleProblem crossedMatching staleState 0).2 =
      .ok [(0, 0), (1, 1), (2, 2), (3, 3)] := by decide +kernel
  exact ⟨hcrossed, hpath, augments_and_length_le_of_run (Prod.ext rfl hpath)⟩

end Search

end Hungarian
