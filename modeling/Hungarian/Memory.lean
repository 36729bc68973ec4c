import Hungarian.Error

/-!
Room for the cells of a table. The number of cells is a product of two indices, and of a product
that does not fit into 64 bits only the last 64 are kept. An array is refused its room when its
bytes cannot be counted with a sign; a cost takes eight of them.
-/

namespace Hungarian

def indexLimit : Nat := 18446744073709551616

/-- The least number of costs that no array has room for. -/
def cellLimit : Nat := 1152921504606846976

/-- The least side of a square that no array has room for. -/
def sideLimit : Nat := 1073741824

def wrapped (number : Nat) : Nat :=
  number % indexLimit

def reserve {α : Type} (cells : Nat) : Except (Failure α) Unit :=
  if cells < cellLimit then .ok () else .error (.faulted .oversized)

theorem wrapped_of_lt {number : Nat} (h : number < indexLimit) : wrapped number = number :=
  Nat.mod_eq_of_lt h

theorem reserve_of_lt {α : Type} {cells : Nat} (h : cells < cellLimit) :
    (reserve cells : Except (Failure α) Unit) = .ok () :=
  if_pos h

theorem lt_of_reserve {α : Type} {cells : Nat}
    (h : (reserve cells : Except (Failure α) Unit) = .ok ()) : cells < cellLimit := by
  unfold reserve at h
  split at h
  · next hroom => exact hroom
  · cases h

theorem reserve_of_le {α : Type} {cells : Nat} (h : cellLimit ≤ cells) :
    (reserve cells : Except (Failure α) Unit) = .error (.faulted .oversized) :=
  if_neg (Nat.not_lt.mpr h)

theorem reserve_wrapped_of_lt {α : Type} {cells : Nat} (h : cells < cellLimit) :
    (reserve (wrapped cells) : Except (Failure α) Unit) = .ok () := by
  rw [wrapped_of_lt (Nat.lt_trans h (by decide)), reserve_of_lt h]

theorem reserve_wrapped_of_le {α : Type} {cells : Nat} (hindex : cells < indexLimit)
    (h : cellLimit ≤ cells) :
    (reserve (wrapped cells) : Except (Failure α) Unit) = .error (.faulted .oversized) := by
  rw [wrapped_of_lt hindex, reserve_of_le h]

theorem mul_self_lt_cellLimit {side : Nat} (h : side < sideLimit) : side * side < cellLimit :=
  Nat.mul_lt_mul_of_lt_of_lt h h

theorem cellLimit_le_mul_self {side : Nat} (h : sideLimit ≤ side) : cellLimit ≤ side * side :=
  Nat.mul_le_mul h h

end Hungarian
