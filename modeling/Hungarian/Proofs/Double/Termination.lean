import Hungarian.Proofs.Double.Progress
import Hungarian.Proofs.Stage.Tightenings

/-!
# Searches in double precision come to an end

A search has no bound of its own: it goes on for as long as it finds columns, and potentials that are
infinite or not numbers could keep all columns far away. That a move of the potentials always brings
a column near is enough to end it, whatever the matching, the potentials and the tree before.
-/

namespace Hungarian

namespace Stage

variable {size : Nat} {problem : Problem Float size}

/-- **Termination.** Every search from a free row ends on its own, with at most one move of the
potentials for each column, each followed by a step that takes in a column; no way back passes more
than one cell more than there are columns; and in a run the search from a row makes at most as many
moves as there are rows up to it, which bounds their sum. -/
theorem searches_end_double (hnonneg : ¬problem.epsilon < 0) :
    (∀ (matching : Matching size) (state : Search.State Float size) (root : Fin size),
      matching.colOf root = none → Search.EndsInTime problem matching state root) ∧
    (∀ (matching : Matching size) (tree : Tree Float size) (root col : Fin size),
      ∃ count last, count + 1 ≤ size + 1 ∧ tree.Climbs matching root count col last ∧
        tree.Halts matching root size count last (tree.traceBack matching root size col [])) ∧
    (∀ search ∈ (final problem).1.searches, search.deltas.length ≤ search.row + 1) ∧
    (final problem).1.tightenings ≤ size * (size + 1) / 2 := by
  have hprogress : Search.Progresses problem := Search.progresses_double hnonneg
  have hfrugal := isFrugal_final hprogress
  refine ⟨?_, ?_, hfrugal.deltas_le, ?_⟩
  · intro matching state root hroot
    exact Search.endsInTime hprogress state hroot
  · intro matching tree root col
    obtain ⟨count, last, answer, hle, hclimbs, hhalts, htrace⟩ :=
      tree.exists_halts_traceBack matching root size col []
    refine ⟨count, last, Nat.succ_le_succ hle, hclimbs, ?_⟩
    rw [htrace]
    -- no cells have been found before the way back starts
    cases answer with
    | ok path => rwa [Except.map, List.append_nil]
    | error error => exact hhalts
  · have htightenings := hfrugal.tightenings_le
    omega

def tableProblem : Problem Float 3 where
  rows := 3
  cols := 3
  costs := .ofFn fun row col => Float.ofNat ((row + 1) * (col + 1))
  forbidden := .ofFn fun _ _ => false
  sentinel := 34
  epsilon := 0

/-- Two rows name one column, and two columns name one row. -/
def tornMatching : Matching 3 where
  cols := #v[none, some 0, some 0]
  rows := #v[some 2, some 1, some 1]

def tornState : Search.State Float 3 where
  tree := .blank
  potentials := {
    rows := #v[-Double.infinity, Double.infinity, Double.infinity - Double.infinity]
    cols := #v[0, Double.infinity, 0] }

/-- The potentials move by infinity, the columns join one by one, and the last of them brings in a
row for the second time. -/
theorem searches_end_torn : ¬tableProblem.epsilon < 0 ∧ tornMatching.colOf 0 = none ∧
    (Search.run tableProblem tornMatching tornState 0).1.tree.moves =
      [.tighten Double.infinity, .reach 0, .reach 1, .reach 2] ∧
    (Search.run tableProblem tornMatching tornState 0).2 = .error .rowReachedTwice ∧
    Search.EndsInTime tableProblem tornMatching tornState 0 ∧
    (∃ count last, count + 1 ≤ 3 + 1 ∧ tornState.tree.Climbs tornMatching 0 count 2 last ∧
      tornState.tree.Halts tornMatching 0 3 count last
        (tornState.tree.traceBack tornMatching 0 3 2 [])) ∧
    ((final tableProblem).1.searches.map fun search => search.deltas) = [[], [], [1]] ∧
    (∀ search ∈ (final tableProblem).1.searches, search.deltas.length ≤ search.row + 1) ∧
    (final tableProblem).1.tightenings ≤ 3 * (3 + 1) / 2 := by
  have hnonneg : ¬tableProblem.epsilon < 0 := by decide +kernel
  have hroot : tornMatching.colOf 0 = none := by decide
  obtain ⟨hends, hback, hdeltas, htightenings⟩ := searches_end_double hnonneg
  refine ⟨hnonneg, hroot, ?_, ?_, hends tornMatching tornState 0 hroot,
    hback tornMatching tornState.tree 0 2, ?_, hdeltas, htightenings⟩
  · decide +kernel
  · decide +kernel
  · decide +kernel

end Stage

end Hungarian
