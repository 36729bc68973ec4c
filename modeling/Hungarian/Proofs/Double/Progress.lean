import Hungarian.Proofs.Double.Order
import Hungarian.Proofs.Search.Spanning

/-!
# Moves of the potentials in double precision

A finite number taken from itself leaves zero, and infinity taken from infinity leaves what is not a
number. Either way the least slack is no longer above the tolerance once it was taken from all
slacks, so that every move of the potentials brings a column near.
-/

namespace Hungarian

open CostArithmetic

namespace Double

open Float.Model (Format UnpackedFloat)
open Float.Model.UnpackedFloat

variable {x y : Float}

theorem sub_eq_ofKind (x y : Float) :
    x - y = ofKind (sub Format.binary64 (kind x) (kind y)) := rfl

theorem kind_sub_self (h : x.isFinite = true) : kind (x - x) = .zero .positive := by
  rw [sub_eq_ofKind]
  replace h : (kind x).isFinite = true := h
  have hsub : sub Format.binary64 (kind x) (kind x) = .zero .positive := by
    generalize kind x = u at h ⊢
    cases u, h using isFinite_cases with
    | zero sign => cases sign <;> rfl
    | finite sign mantissa exponent hpos =>
        simp only [sub, min_self, sub_self]
        rfl
  rw [hsub]
  exact kind_ofKind trivial

theorem kind_sub_infinity (hy : kind y = .infinity .positive)
    (hx : kind x = .infinity .positive ∨ kind x = .notANumber) : kind (x - y) = .notANumber := by
  rw [sub_eq_ofKind, hy]
  have hsub : sub Format.binary64 (kind x) (.infinity .positive) = .notANumber := by
    rcases hx with hx | hx <;> rw [hx] <;> rfl
  rw [hsub]
  exact kind_ofKind trivial

/-- The ranks above those of the finite numbers. -/
theorem kind_of_le_rank (h : (2047 * 2 ^ 52 : Nat) ≤ rank x) :
    kind x = .infinity .positive ∨ kind x = .notANumber := by
  have hwell := wellFormed_kind x
  cases hnegative : isNegative (kind x) with
  | true =>
      rw [rank, hnegative, if_pos rfl] at h
      omega
  | false =>
      rw [rank_eq_level hnegative] at h
      cases hkind : kind x with
      | notANumber => exact .inr rfl
      | infinity sign =>
          rw [hkind] at hnegative
          cases sign with
          | positive => exact .inl rfl
          | negative => exact absurd hnegative (by decide)
      | zero sign =>
          rw [hkind, level_zero] at h
          omega
      | finite sign =>
          rw [hkind] at h hwell
          exact absurd (level_finite_mem _ hwell).2 (not_lt.mpr h)

/-- Beyond the finite numbers, the one number with a positive rank is infinity. -/
theorem kind_of_rank_pos (hpos : 0 < rank x) (hnumber : kind x ≠ .notANumber)
    (hfinite : x.isFinite = false) : kind x = .infinity .positive := by
  replace hfinite : (kind x).isFinite = false := hfinite
  cases hkind : kind x with
  | notANumber => exact absurd hkind hnumber
  | infinity sign =>
      cases sign with
      | positive => rfl
      | negative =>
          have hrank : rank x = -1 - (2047 * 2 ^ 52 : Nat) := by
            rw [rank, hkind]
            exact if_pos rfl
          omega
  | zero => rw [hkind] at hfinite; exact absurd hfinite.symm Bool.false_ne_true
  | finite => rw [hkind] at hfinite; exact absurd hfinite.symm Bool.false_ne_true

/-- What is above a number that is not negative has a positive rank. -/
theorem rank_pos_of_lt (hx : ¬x < 0) (hlt : x < y) : 0 < rank y := by
  obtain ⟨hnumber, -, hlevel⟩ := lt_iff.mp hlt
  have hlevel' : 0 ≤ level (kind x) := by
    by_contra hneg
    refine hx (lt_iff.mpr ⟨hnumber, ?_, ?_⟩)
    · rw [kind_zero]
      exact UnpackedFloat.noConfusion
    · rw [kind_zero, level_zero]
      omega
  have hpositive : isNegative (kind y) = false := by
    by_contra hnegative
    have hlevel'' : level (kind y) = -magnitude (kind y) := if_pos (by simpa using hnegative)
    omega
  rw [rank_eq_level hpositive]
  omega

end Double

namespace Search

open Double

variable {size : Nat} {problem : Problem Float size}

theorem progresses_double (hnonneg : ¬problem.epsilon < 0) : Progresses problem := by
  intro tree col hclosest hfar
  have hcol := Tree.outside_of_closest? hclosest
  obtain ⟨other, hother⟩ : ∃ other, (tree.tighten (tree.slack.get col)).closest? = some other :=
    Tree.exists_closest?_eq_some hcol
  refine ⟨other, hother, fun hlt => ?_⟩
  have houtside : (tree.tighten (tree.slack.get col)).cols.get other = false :=
    Tree.outside_of_closest? hother
  change tree.cols.get other = false at houtside
  have hpos := rank_pos_of_lt hnonneg hlt
  have hmoved : ∀ index, tree.cols.get index = false →
      (tree.tighten (tree.slack.get col)).slack.get index =
        tree.slack.get index - tree.slack.get col := by
    intro index hindex
    rw [Tree.slack_tighten, hindex]
    rfl
  cases hslack : (tree.slack.get col).isFinite with
  | true =>
      -- the closest column itself is now at zero
      have hle := Tree.key_le_of_closest? rank precedes_eq hother hcol
      rw [hmoved col hcol] at hle
      have hzero : rank (tree.slack.get col - tree.slack.get col) = 0 := by
        rw [rank, kind_sub_self hslack]
        rfl
      omega
  | false =>
      -- the slacks of all columns outside are infinite, or not numbers
      have hinfinite : kind (tree.slack.get col) = .infinity .positive :=
        kind_of_rank_pos (rank_pos_of_lt hnonneg hfar) (lt_iff.mp hfar).2.1 hslack
      have hle := Tree.key_le_of_closest? rank precedes_eq hclosest houtside
      have hrank : rank (tree.slack.get col) = (2047 * 2 ^ 52 : Nat) := by
        rw [rank, hinfinite]
        rfl
      obtain ⟨-, hnumber, -⟩ := lt_iff.mp hlt
      rw [hmoved other houtside] at hnumber
      exact hnumber (kind_sub_infinity hinfinite (kind_of_le_rank (hrank ▸ hle)))

end Search

end Hungarian
