import Hungarian.Proofs.Double.Progress
import Hungarian.Proofs.Search.Alternating

/-!
# Searches in double precision that succeed

Only the row of the root has to lie below infinity. Its cells then name the root as the first parent
of every column, so that no parent is left of an earlier tree, and a row that enters later takes a
column over only where it is strictly nearer, which a cost that is not a number never is. Infinities
in other rows can lead a search astray, but never make it fail.
-/

namespace Hungarian

open Double

namespace Search

variable {size : Nat} {problem : Problem Float size} {matching : Matching size} {root : Fin size}

/-- **A search from a consistent state succeeds.** Whatever the tree before and the potentials, as
long as the cells of the root have reduced costs below infinity: the search neither comes to a row
twice nor runs out of columns, and its way back neither goes round nor comes to a row without a
column. -/
theorem exists_path_of_lt_infinity (hnonneg : ¬problem.epsilon < 0)
    (hconsistent : matching.Consistent) (hroot : matching.colOf root = none)
    (state : State Float size)
    (hbelow : ∀ col, state.potentials.reducedCost problem root col < infinity) :
    ∃ last path, run problem matching state root = (last, .ok path) :=
  exists_run_eq_ok hconsistent hroot (progresses_double hnonneg) fun col =>
    decide_eq_true (hbelow col)

def loneProblem : Problem Float 5 where
  rows := 5
  cols := 5
  costs := .ofFn fun row col => if row = 0 then #v[5, 1, 4, 9, 7].get col else 0
  forbidden := .ofFn fun _ _ => false
  sentinel := 46
  epsilon := 0

def steppedMatching : Matching 5 where
  cols := #v[none, some 0, some 1, some 2, some 3]
  rows := #v[some 1, some 2, some 3, some 4, none]

/-- The potentials of the matched rows are infinite or not numbers, the cells of the root are
infeasible, and the parents are those of another search. -/
def strayState : State Float 5 where
  tree := { (Tree.blank : Tree Float 5) with parent := #v[2, 1, 1, 4, 3] }
  potentials := {
    rows := #v[0, infinity - infinity, infinity, -infinity, infinity - infinity]
    cols := #v[1, 2, 0, 0, 0] }

/-- The row at infinity is the nearest to all other columns, and the path leads through it. -/
theorem exists_path_stray : ¬loneProblem.epsilon < 0 ∧ steppedMatching.Consistent ∧
    steppedMatching.colOf 0 = none ∧
    (∀ col, strayState.potentials.reducedCost loneProblem 0 col < infinity) ∧
    (run loneProblem steppedMatching strayState 0).2 = .ok [(0, 1), (2, 4)] ∧
    ∃ last path, run loneProblem steppedMatching strayState 0 = (last, .ok path) := by
  have hnonneg : ¬loneProblem.epsilon < 0 := by decide +kernel
  have hconsistent : steppedMatching.Consistent := by
    unfold Matching.Consistent
    decide
  have hroot : steppedMatching.colOf 0 = none := by decide
  have hbelow : ∀ col, strayState.potentials.reducedCost loneProblem 0 col < infinity := by
    decide +kernel
  exact ⟨hnonneg, hconsistent, hroot, hbelow, by decide +kernel,
    exists_path_of_lt_infinity hnonneg hconsistent hroot strayState hbelow⟩

end Search

end Hungarian
