import Mathlib.Tactic.Ring
import Hungarian.Proofs.Stage.Visits

/-!
# How often a run moves the potentials

Rows are matched one after another, so that the search from a row meets no more rows than there are
up to it, and it moves the potentials at most once for each of them. Over a whole run that is at most
the sum of the numbers up to the size, also where the run fails.
-/

namespace Hungarian

variable {α : Type} {size : Nat}

theorem Tree.Spans.rowCount_le {tree : Tree α size} {matching : Matching size} {root : Fin size}
    (h : tree.Spans matching root)
    (hbound : ∀ row : Fin size, (matching.colOf row).isSome → row ≤ root) :
    tree.rowCount ≤ root + 1 := by
  have hsubset : (Finset.univ.filter fun row => tree.rows.get row = true) ⊆ Finset.Iic root := by
    intro row hrow
    rw [Finset.mem_Iic]
    by_cases heq : row = root
    · exact heq.le
    · obtain ⟨col, hcol, -⟩ := (h.row_mem_iff row heq).mp (Finset.mem_filter.mp hrow).2
      exact hbound row (by rw [hcol]; rfl)
  exact (Finset.card_le_card hsubset).trans_eq (Fin.card_Iic root)

namespace Stage

variable {stage : Stage α size} {row : Fin size} {count : Nat}

/-- The searches from the rows below a number, each with at most as many moves of the potentials as
there are rows up to its own. -/
structure IsFrugal (count : Nat) (stage : Stage α size) : Prop where
  deltas_le : ∀ search ∈ stage.searches, search.deltas.length ≤ search.row + 1
  tightenings_le : 2 * stage.tightenings ≤ count * (count + 1)

theorem IsFrugal.mono {bound : Nat} (h : stage.IsFrugal count) (hle : count ≤ bound) :
    stage.IsFrugal bound where
  deltas_le := h.deltas_le
  tightenings_le := h.tightenings_le.trans (Nat.mul_le_mul hle (Nat.succ_le_succ hle))

variable [CostArithmetic α] {problem : Problem α size}

theorem isFrugal_initial (problem : Problem α size) : (initial problem).IsFrugal 0 where
  deltas_le := fun _ hsearch => absurd hsearch List.not_mem_nil
  tightenings_le := le_rfl

theorem Reached.tightenings_run_le (h : Reached problem row stage)
    (hprogress : Search.Progresses problem) :
    (Search.run problem stage.matching stage.state row).1.tree.tightenings ≤ row + 1 := by
  obtain ⟨middle, answer, hsteps, hends, hexplore⟩ :=
    Search.exists_ends_plant hprogress stage.matching stage.state row
  have hgrowing : middle.tree.IsGrowing stage.matching row :=
    Search.isGrowing_of_steps h.consistent (Tree.isGrowing_plant _ _ _ _) hsteps
  rw [Search.fst_run h.root_free, hexplore _ le_rfl]
  -- besides the root only matched rows join the tree, and these come before it
  refine (Search.tightenings_le_of_ends hsteps hends hprogress).trans
    (hgrowing.rowCount_le fun other hother => ?_)
  exact ((h.matched_iff other).mp hother).le

theorem searches_matchRow (problem : Problem α size) (stage : Stage α size) (row : Fin size) :
    (stage.matchRow problem row).1.searches = stage.searches ++ [{
      row
      deltas := (Search.run problem stage.matching stage.state row).1.tree.deltas
      path := (Search.run problem stage.matching stage.state row).2 }] := by
  rw [matchRow]
  rcases Search.run problem stage.matching stage.state row with ⟨state, error | path⟩
  · rfl
  · dsimp only
    split
    · rfl
    · rfl

theorem tightenings_matchRow (problem : Problem α size) (stage : Stage α size) (row : Fin size) :
    (stage.matchRow problem row).1.tightenings = stage.tightenings +
      (Search.run problem stage.matching stage.state row).1.tree.tightenings := by
  rw [tightenings, searches_matchRow, List.foldl_append]
  rfl

/-- A search that fails counts like one that matches its row. -/
theorem IsFrugal.matchRow (h : stage.IsFrugal row) (hstage : Reached problem row stage)
    (hprogress : Search.Progresses problem) :
    (stage.matchRow problem row).1.IsFrugal (row + 1) where
  deltas_le := by
    intro search hsearch
    rw [searches_matchRow, List.mem_append, List.mem_singleton] at hsearch
    rcases hsearch with hold | rfl
    · exact h.deltas_le search hold
    · exact hstage.tightenings_run_le hprogress
  tightenings_le := by
    have hsum := h.tightenings_le
    have hrun := hstage.tightenings_run_le hprogress
    rw [tightenings_matchRow]
    calc 2 * (stage.tightenings +
          (Search.run problem stage.matching stage.state row).1.tree.tightenings)
        = 2 * stage.tightenings +
            2 * (Search.run problem stage.matching stage.state row).1.tree.tightenings := by ring
      _ ≤ row * (row + 1) + 2 * (row + 1) := by omega
      _ = (row + 1) * (row + 1 + 1) := by ring

theorem Reached.isFrugal (hprogress : Search.Progresses problem) (h : Reached problem count stage) :
    stage.IsFrugal count := by
  induction h with
  | initial => exact isFrugal_initial problem
  | matchRow hstage hmatch ih =>
      have hnext := ih.matchRow hstage hprogress
      rwa [hmatch] at hnext

theorem isFrugal_final (hprogress : Search.Progresses problem) :
    (final problem).1.IsFrugal size := by
  rcases final_cases problem with ⟨last, hfinal, hlast⟩ | ⟨stage, row, last, failure, h, hmatch, hfinal⟩
  · rw [hfinal]
    exact hlast.isFrugal hprogress
  · have hlast := (h.isFrugal hprogress).matchRow h hprogress
    rw [hmatch] at hlast
    rw [hfinal]
    exact hlast.mono row.isLt

end Stage

end Hungarian
