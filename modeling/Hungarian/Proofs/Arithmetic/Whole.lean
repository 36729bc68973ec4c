import Hungarian.Proofs.Arithmetic.Exact

/-!
# Whole numbers

Rational numbers that are whole and not too large. Sums of them are whole again, and between whole
numbers an error of less than one does not count.
-/

namespace Hungarian

open CostArithmetic

def IsCount (limit : ℤ) (number : ℚ) : Prop :=
  ∃ count : ℤ, number = count ∧ |count| ≤ limit

def IsSmall (number : ℚ) : Prop :=
  IsCount (2 ^ 53) number

theorem isCount_of_abs_le {number : ℚ} {limit : ℤ} (hwhole : ∃ count : ℤ, number = count)
    (h : |number| ≤ limit) : IsCount limit number := by
  obtain ⟨count, rfl⟩ := hwhole
  refine ⟨count, rfl, ?_⟩
  rw [← Int.cast_abs] at h
  exact_mod_cast h

theorem IsCount.mono {number : ℚ} {limit limit' : ℤ} (h : IsCount limit number)
    (hle : limit ≤ limit') : IsCount limit' number := by
  obtain ⟨count, hcount, habs⟩ := h
  exact ⟨count, hcount, habs.trans hle⟩

theorem IsCount.add {number number' : ℚ} {limit limit' : ℤ} (h : IsCount limit number)
    (h' : IsCount limit' number') : IsCount (limit + limit') (number + number') := by
  obtain ⟨count, hcount, habs⟩ := h
  obtain ⟨count', hcount', habs'⟩ := h'
  refine ⟨count + count', by rw [hcount, hcount', Int.cast_add], ?_⟩
  exact (abs_add_le count count').trans (add_le_add habs habs')

theorem isCount_total {costs : List ℚ} {limit : ℤ} (h : ∀ cost ∈ costs, IsCount limit cost) :
    IsCount (costs.length * limit) (total costs) := by
  rw [total_eq_sum]
  induction costs with
  | nil => exact ⟨0, by simp, by simp⟩
  | cons first rest ih =>
      obtain ⟨hfirst, hrest⟩ := List.forall_mem_cons.mp h
      rw [List.sum_cons]
      refine (hfirst.add (ih hrest)).mono (le_of_eq ?_)
      rw [List.length_cons]
      push_cast
      ring

/-- The sums of the first numbers of a list. -/
theorem isCount_total_take {size : Nat} {costs : List ℚ} {limit : ℤ} (h : ∀ cost ∈ costs, IsCount limit cost)
    (hlimit : 0 ≤ limit) (hlength : costs.length ≤ size) (count : Nat) :
    IsCount (size * limit) (total (costs.take count)) := by
  refine (isCount_total fun cost hcost => h cost (List.mem_of_mem_take hcost)).mono ?_
  apply mul_le_mul_of_nonneg_right _ hlimit
  exact_mod_cast (List.length_take_le' count costs).trans hlength

/-- Less than one does not count between whole numbers. -/
theorem le_of_le_add_of_lt_one {number error : ℚ} {bound : ℤ}
    (hwhole : ∃ count : ℤ, number = count) (h : number ≤ bound + error) (herror : error < 1) :
    number ≤ bound := by
  obtain ⟨count, rfl⟩ := hwhole
  have hless : (count : ℚ) < ((bound + 1 : ℤ) : ℚ) := by
    push_cast
    linarith
  rw [Int.cast_lt] at hless
  exact_mod_cast Int.lt_add_one_iff.mp hless

theorem exists_eq_intCast {number : ℚ} (h : number ∈ AddSubgroup.zmultiples (1 : ℚ)) :
    ∃ count : ℤ, number = count := by
  obtain ⟨count, rfl⟩ := AddSubgroup.mem_zmultiples_iff.mp h
  exact ⟨count, by simp⟩

end Hungarian
