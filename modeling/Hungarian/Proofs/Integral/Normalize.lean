import Hungarian.Proofs.Integral.Simulation

/-!
# Normalizing whole costs in double precision

A matrix of whole numbers has the same problem in double precision as it has exactly.
-/

namespace Hungarian

open CostArithmetic

variable {α β : Type}

namespace CostMatrix

variable {matrix : CostMatrix α} {f : α → β}

theorem padded_map_eq_ok (h : matrix.WellShaped) (padValue : α) :
    (matrix.map f).padded (f padValue) =
      .ok (.ofFn fun row col => f (matrix.gridCost padValue row col)) := by
  have hcost : (matrix.map f).gridCost (f padValue) =
      fun row col => f (matrix.gridCost padValue row col) := by
    funext row col
    rw [gridCost, gridCost, apply_ite f, get?_map, Option.getD_map]
    rfl
  rw [padded_eq_ok (wellShaped_map h), grid, hcost]

end CostMatrix

namespace Options

def map (f : α → β) (tolerance : β) (options : Options α) : Options β where
  maximize := options.maximize
  disallowed := options.disallowed
  padValue := f options.padValue
  tolerance := tolerance

end Options

namespace Problem

variable {size : Nat} {costs : Square Float size} {exact : Square ℚ size}
  (hcosts : ∀ row col, Double.Stores (costs.get row col) (exact.get row col))

include hcosts

theorem forall₂_toList_square : List.Forall₂ Double.Stores costs.toList exact.toList := by
  have hrows : List.Forall₂ (fun entries entries' => List.Forall₂ Double.Stores
      (Vector.toList entries) (Vector.toList entries')) costs.rows.toList exact.rows.toList :=
    forall₂_toList fun row => forall₂_toList fun col => hcosts row col
  exact List.rel_flatMap hrows fun _ _ hentries => hentries

theorem stores_complement (hsmall : ∀ row col, IsSmall ((complement exact).get row col))
    (row col : Fin size) :
    Double.Stores ((complement costs).get row col) ((complement exact).get row col) := by
  have hexact := hsmall row col
  rw [complement, Square.get_ofFn] at hexact
  rw [complement, complement, Square.get_ofFn, Square.get_ofFn]
  exact (Double.stores_greatest?_getD (forall₂_toList_square hcosts)).sub (hcosts row col) hexact

theorem stores_transformed {options : Options Float} {options' : Options ℚ}
    (hmaximize : options.maximize = options'.maximize)
    (hsmall : ∀ row col, IsSmall ((transformed options' exact).get row col)) (row col : Fin size) :
    Double.Stores ((transformed options costs).get row col)
      ((transformed options' exact).get row col) := by
  rw [transformed] at hsmall
  rw [transformed, transformed, hmaximize]
  split at hsmall
  · next hmax =>
      rw [if_pos hmax, if_pos hmax]
      exact stores_complement hcosts hsmall row col
  · next hmin =>
      rw [if_neg hmin, if_neg hmin]
      exact hcosts row col

theorem forall₂_freeCosts (forbidden : Square Bool size) :
    List.Forall₂ Double.Stores (freeCosts costs forbidden) (freeCosts exact forbidden) := by
  refine List.rel_filterMap (R := Eq) ?_ (List.forall₂_same.mpr fun _ _ => rfl)
  rintro place _ rfl
  dsimp only
  split
  · exact .none
  · exact .some (hcosts place.1 place.2)

omit hcosts in
/-- The sentinel is computed without rounding. -/
theorem stores_sentinelOver {numbers : List Float} {exact : List ℚ}
    (h : List.Forall₂ Double.Stores numbers exact) (hsize : size ≤ 2 ^ 53)
    (hprices : ∀ number, Prices size exact number → IsSmall number) :
    Double.Stores (sentinelOver size numbers) (sentinelOver size exact) := by
  have hlow := Double.stores_least?_getD h
  have hhigh := Double.stores_greatest?_getD h
  have hspread := hhigh.sub hlow (hprices _ .spread)
  have hnonneg : 0 ≤ (greatest? exact).getD 0 - (least? exact).getD 0 :=
    sub_nonneg.mpr (least?_getD_le_greatest?_getD exact)
  have hweighted := (Double.stores_ofCount hsize).mul hspread (Nat.cast_nonneg size) hnonneg
    (hprices _ .weightedSpread)
  exact (hhigh.add hweighted (hprices _ .raised)).add Double.stores_one (hprices _ .sentinel)

/-- The sentinel being a whole number of 53 bits, the costs are accepted in double precision too. -/
theorem exists_ofSquare_stores {rows cols : Nat} {forbidden : Square Bool size}
    {tolerance : Float} {epsilon : ℚ} {problem : Problem ℚ size}
    (hsize : size ≤ 2 ^ 53)
    (hprices : ∀ number, Prices size (freeCosts exact forbidden) number → IsSmall number)
    (hfinite : tolerance.isFinite = true) (hnonneg : 0 ≤ Double.value tolerance)
    (hless : Double.value tolerance < 1)
    (h : ofSquare rows cols exact forbidden epsilon = .ok problem) :
    ∃ double, ofSquare rows cols costs forbidden tolerance = .ok double ∧
      double.Stores problem := by
  have hsentinel := stores_sentinelOver (forall₂_freeCosts hcosts forbidden) hsize hprices
  refine ⟨_, if_pos hsentinel.denotes.isFinite, ?_⟩
  cases h
  refine ⟨rfl, rfl, rfl, fun row col => ?_, hfinite, hnonneg, hless⟩
  rw [cost, cost, Square.get_ofFn, Square.get_ofFn]
  split
  · exact hsentinel
  · exact hcosts row col

end Problem

end Hungarian
