import Mathlib.Data.Fintype.Card
import Mathlib.Data.List.Infix
import Hungarian.Proofs.Matching.Augment
import Hungarian.Search.Tree

/-!
# Tracing a path back

The parents that a search leaves behind may stem from earlier searches, so nothing about the tree is
assumed here. A trace is determined by the column it starts from; if it met a column twice it would
go round for ever, and hence a trace that ends visits every column and every row at most once.
-/

namespace Hungarian.Tree

variable {α : Type} {size : Nat} {tree : Tree α size} {matching : Matching size}
  {root col : Fin size} {path : Path size} {cell : Fin size × Fin size}

inductive LeadsBack (tree : Tree α size) (matching : Matching size) (root : Fin size) :
    Fin size → Path size → Prop
  | arrive {col : Fin size} (harrive : tree.parent.get col = root) :
      LeadsBack tree matching root col [(root, col)]
  | pass {col next : Fin size} {path : Path size} (hpass : tree.parent.get col ≠ root)
      (hnext : matching.colOf (tree.parent.get col) = some next)
      (hpath : LeadsBack tree matching root next path) :
      LeadsBack tree matching root col (path ++ [(tree.parent.get col, col)])

/-- A number of cells back from a column, none of them the root's, comes another column. -/
inductive Climbs (tree : Tree α size) (matching : Matching size) (root : Fin size) :
    Nat → Fin size → Fin size → Prop
  | start {col : Fin size} : Climbs tree matching root 0 col col
  | climb {count : Nat} {col next last : Fin size} (hpass : tree.parent.get col ≠ root)
      (hnext : matching.colOf (tree.parent.get col) = some next)
      (h : Climbs tree matching root count next last) : Climbs tree matching root (count + 1) col last

/-- Where the way back ends: at the root, after the last cell that is allowed, or at a row without a
column. -/
inductive Halts (tree : Tree α size) (matching : Matching size) (root : Fin size) (limit : Nat) :
    Nat → Fin size → Except SearchError (Path size) → Prop
  | home {count : Nat} {last : Fin size} {path : Path size} (hhome : tree.parent.get last = root)
      (hlength : path.length = count + 1) : Halts tree matching root limit count last (.ok path)
  | spent {last : Fin size} (hpass : tree.parent.get last ≠ root) :
      Halts tree matching root limit limit last (.error .cyclicPath)
  | stranded {count : Nat} {last : Fin size} (hpass : tree.parent.get last ≠ root)
      (hfree : matching.colOf (tree.parent.get last) = none) :
      Halts tree matching root limit count last (.error .unmatchedTreeRow)

/-- The way back from a column passes at most one cell more than it is allowed steps. -/
theorem exists_halts_traceBack (tree : Tree α size) (matching : Matching size) (root : Fin size)
    (steps : Nat) (col : Fin size) (rest : Path size) :
    ∃ count last answer, count ≤ steps ∧ tree.Climbs matching root count col last ∧
      tree.Halts matching root steps count last answer ∧
      tree.traceBack matching root steps col rest = answer.map (· ++ rest) := by
  induction steps generalizing col rest with
  | zero =>
      rw [traceBack]
      by_cases hhome : tree.parent.get col = root
      · exact ⟨0, col, .ok [(tree.parent.get col, col)], le_rfl, .start, .home hhome rfl,
          if_pos hhome⟩
      · exact ⟨0, col, .error .cyclicPath, le_rfl, .start, .spent hhome, if_neg hhome⟩
  | succ steps ih =>
      rw [traceBack]
      by_cases hhome : tree.parent.get col = root
      · exact ⟨0, col, .ok [(tree.parent.get col, col)], Nat.zero_le _, .start, .home hhome rfl,
          if_pos hhome⟩
      · rw [if_neg hhome]
        cases hnext : matching.colOf (tree.parent.get col) with
        | none =>
            exact ⟨0, col, .error .unmatchedTreeRow, Nat.zero_le _, .start, .stranded hhome hnext, rfl⟩
        | some next =>
            obtain ⟨count, last, answer, hle, hclimbs, hhalts, htrace⟩ :=
              ih next ((tree.parent.get col, col) :: rest)
            have hclimb : tree.Climbs matching root (count + 1) col last :=
              .climb hhome hnext hclimbs
            have hcount : count + 1 ≤ steps + 1 := Nat.succ_le_succ hle
            cases hhalts with
            | @home _ _ path hlast hlength =>
                refine ⟨count + 1, last, .ok (path ++ [(tree.parent.get col, col)]), hcount, hclimb,
                  .home hlast (by simp [hlength]), htrace.trans ?_⟩
                simp [Except.map]
            | spent hlast => exact ⟨_, last, _, hcount, hclimb, .spent hlast, htrace⟩
            | stranded hlast hfree => exact ⟨_, last, _, hcount, hclimb, .stranded hlast hfree, htrace⟩

theorem error_of_traceBack {steps : Nat} {rest : Path size} {error : SearchError}
    (h : tree.traceBack matching root steps col rest = .error error) :
    error = .cyclicPath ∨
      error = .unmatchedTreeRow ∧ ∃ col, tree.parent.get col ≠ root ∧
        matching.colOf (tree.parent.get col) = none := by
  obtain ⟨count, last, answer, -, -, hhalts, htrace⟩ :=
    exists_halts_traceBack tree matching root steps col rest
  rw [htrace] at h
  cases hhalts with
  | home => cases h
  | spent =>
      cases h
      exact .inl rfl
  | stranded hpass hfree =>
      cases h
      exact .inr ⟨rfl, last, hpass, hfree⟩

/-- The cells of a way back, in the order from the root. -/
theorem leadsBack_of_traceBack {steps : Nat} {rest : Path size}
    (h : tree.traceBack matching root steps col rest = .ok path) :
    ∃ front, tree.LeadsBack matching root col front ∧ path = front ++ rest := by
  induction steps generalizing col rest with
  | zero =>
      rw [traceBack] at h
      split at h
      · next harrive =>
          cases h
          exact ⟨[(root, col)], .arrive harrive, by rw [harrive]; rfl⟩
      · cases h
  | succ steps ih =>
      rw [traceBack] at h
      split at h
      · next harrive =>
          cases h
          exact ⟨[(root, col)], .arrive harrive, by rw [harrive]; rfl⟩
      · next hpass =>
          split at h
          · cases h
          · next next hnext =>
              obtain ⟨front, hfront, rfl⟩ := ih h
              exact ⟨_, .pass hpass hnext hfront, by simp⟩

namespace LeadsBack

/-- There is only one way back. -/
theorem unique {other : Path size} (h : tree.LeadsBack matching root col path)
    (hother : tree.LeadsBack matching root col other) : path = other := by
  induction h generalizing other with
  | arrive harrive =>
      cases hother with
      | arrive => rfl
      | pass hpass => exact absurd harrive hpass
  | pass hpass hnext _ ih =>
      cases hother with
      | arrive harrive => exact absurd harrive hpass
      | pass _ hnext' hpath' =>
          obtain rfl := Option.some.inj (hnext.symm.trans hnext')
          rw [ih hpath']

theorem exists_eq_concat (h : tree.LeadsBack matching root col path) :
    ∃ front, path = front ++ [(tree.parent.get col, col)] := by
  cases h with
  | arrive harrive => exact ⟨[], by rw [harrive]; rfl⟩
  | pass => exact ⟨_, rfl⟩

theorem head?_eq (h : tree.LeadsBack matching root col path) :
    path.head?.map Prod.fst = some root := by
  induction h with
  | arrive => rfl
  | pass _ _ hpath ih =>
      obtain ⟨front, hfront⟩ := hpath.exists_eq_concat
      rw [List.head?_append_of_ne_nil _ (by rw [hfront]; simp)]
      exact ih

/-- A trace starts with the traces of its columns. -/
theorem exists_prefix (h : tree.LeadsBack matching root col path) (hcell : cell ∈ path) :
    ∃ front, tree.LeadsBack matching root cell.2 front ∧ front <+: path := by
  induction h with
  | arrive harrive =>
      obtain rfl := List.mem_singleton.mp hcell
      exact ⟨_, .arrive harrive, List.prefix_rfl⟩
  | pass hpass hnext hpath ih =>
      rcases List.mem_append.mp hcell with hmem | hlast
      · obtain ⟨front, hfront, hprefix⟩ := ih hmem
        exact ⟨front, hfront, hprefix.trans (List.prefix_append _ _)⟩
      · obtain rfl := List.mem_singleton.mp hlast
        exact ⟨_, .pass hpass hnext hpath, List.prefix_rfl⟩

theorem fst_eq_parent (h : tree.LeadsBack matching root col path) (hcell : cell ∈ path) :
    cell.1 = tree.parent.get cell.2 := by
  induction h with
  | arrive harrive =>
      obtain rfl := List.mem_singleton.mp hcell
      exact harrive.symm
  | pass _ _ _ ih =>
      rcases List.mem_append.mp hcell with hmem | hlast
      · exact ih hmem
      · rw [List.mem_singleton.mp hlast]

/-- A trace reads the parents of its own columns only. -/
theorem congr {other : Tree α size} (h : tree.LeadsBack matching root col path)
    (hparents : ∀ cell ∈ path, other.parent.get cell.2 = tree.parent.get cell.2) :
    other.LeadsBack matching root col path := by
  induction h with
  | @arrive col harrive =>
      exact .arrive ((hparents (root, col) (List.mem_singleton_self _)).trans harrive)
  | @pass col next path hpass hnext _ ih =>
      have hparent : other.parent.get col = tree.parent.get col :=
        hparents (tree.parent.get col, col) (List.mem_append_right _ (List.mem_singleton_self _))
      rw [← hparent] at hpass hnext ⊢
      exact .pass hpass hnext (ih fun cell hcell => hparents cell (List.mem_append_left _ hcell))

theorem linked (h : tree.LeadsBack matching root col path) :
    path.IsChain fun cell next => matching.colOf next.1 = some cell.2 := by
  induction h with
  | arrive => exact List.isChain_singleton _
  | pass hpass hnext hpath ih =>
      obtain ⟨front, rfl⟩ := hpath.exists_eq_concat
      rw [List.append_assoc, List.singleton_append, List.isChain_append_cons_cons]
      exact ⟨ih, hnext, List.isChain_singleton _⟩

/-- A column that came back would have a trace that is shorter than itself. -/
theorem cols_nodup (h : tree.LeadsBack matching root col path) :
    (path.map Prod.snd).Nodup := by
  induction h with
  | arrive => exact List.nodup_singleton _
  | @pass col next path hpass hnext hpath ih =>
      rw [List.map_append, List.map_singleton, List.nodup_append]
      refine ⟨ih, List.nodup_singleton _, fun other hother last hlast => ?_⟩
      obtain rfl := List.mem_singleton.mp hlast
      rintro rfl
      obtain ⟨cell, hcell, rfl⟩ := List.mem_map.mp hother
      obtain ⟨front, hfront, hprefix⟩ := hpath.exists_prefix hcell
      have heq := hfront.unique (.pass hpass hnext hpath)
      have hlength := hprefix.length_le
      rw [heq, List.length_append, List.length_singleton] at hlength
      omega

/-- A row that came back would lead to the same matched column, and so to the same trace. -/
theorem rows_nodup (h : tree.LeadsBack matching root col path) :
    (path.map Prod.fst).Nodup := by
  induction h with
  | arrive => exact List.nodup_singleton _
  | @pass col next path hpass hnext hpath ih =>
      rw [List.map_append, List.map_singleton, List.nodup_append]
      refine ⟨ih, List.nodup_singleton _, fun other hother last hlast => ?_⟩
      obtain rfl := List.mem_singleton.mp hlast
      rintro rfl
      obtain ⟨cell, hcell, hrow⟩ := List.mem_map.mp hother
      have hparent : tree.parent.get cell.2 = tree.parent.get col :=
        (hpath.fst_eq_parent hcell).symm.trans hrow
      obtain ⟨front, hfront, hprefix⟩ := hpath.exists_prefix hcell
      cases hfront with
      | arrive harrive => exact hpass (hparent.symm.trans harrive)
      | pass _ hnext' hpath' =>
          rw [hparent, hnext] at hnext'
          obtain rfl := Option.some.inj hnext'
          have hlength := hprefix.length_le
          rw [hpath'.unique hpath, List.length_append, List.length_singleton] at hlength
          omega

theorem augments (h : tree.LeadsBack matching root col path)
    (hroot : matching.colOf root = none) (hcol : matching.rowOf col = none) :
    matching.Augments path where
  ne_nil := by
    obtain ⟨front, rfl⟩ := h.exists_eq_concat
    exact List.append_ne_nil_of_right_ne_nil _ (List.cons_ne_nil _ _)
  root_free := by
    intro cell hcell
    have hhead := h.head?_eq
    rw [Option.mem_def.mp hcell, Option.map_some, Option.some.injEq] at hhead
    rw [hhead, hroot]
  end_free := by
    intro cell hcell
    obtain ⟨front, rfl⟩ := h.exists_eq_concat
    rw [List.getLast?_concat] at hcell
    rw [← Option.some.inj hcell, hcol]
  linked := h.linked
  rows_nodup := h.rows_nodup
  cols_nodup := h.cols_nodup

end LeadsBack

end Hungarian.Tree
