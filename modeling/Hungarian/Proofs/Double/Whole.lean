import Mathlib.Data.List.Forall2
import Hungarian.Proofs.Arithmetic.Whole
import Hungarian.Proofs.Double.Exact

/-!
# Whole numbers in double precision

A whole number of 53 bits is stored as it is, and every operation whose result is again such a number
is exact. Sums are exact as long as the sums of their first terms are.
-/

namespace Hungarian

open CostArithmetic

namespace Double

variable {x y : Float} {q r : ℚ}

/-- The one number in double precision for a whole number of 53 bits. -/
structure Stores (x : Float) (q : ℚ) : Prop where
  denotes : Denotes x q
  isSmall : IsSmall q

theorem isRepresentable_of_isSmall (h : IsSmall q) : IsRepresentable q := by
  obtain ⟨count, rfl, hcount⟩ := h
  exact isRepresentable_intCast hcount

theorem stores_ofInt {count : ℤ} (h : |count| ≤ 2 ^ 53) : Stores (Float.ofInt count) count where
  denotes := denotes_ofInt h
  isSmall := ⟨count, rfl, h⟩

theorem stores_ofCount {count : Nat} (h : count ≤ 2 ^ 53) :
    Stores (ofCount count) (ofCount count) where
  denotes := denotes_ofNat h
  isSmall := ⟨count, rfl, by rw [abs_of_nonneg (Int.natCast_nonneg count)]; exact_mod_cast h⟩

theorem stores_zero : Stores 0 0 where
  denotes := denotes_zero
  isSmall := ⟨0, by simp, by simp⟩

theorem stores_one : Stores 1 1 := by
  have hone := stores_ofCount (show 1 ≤ 2 ^ 53 by norm_num)
  have hcast : (ofCount 1 : ℚ) = 1 := Nat.cast_one
  rwa [hcast] at hone

namespace Stores

variable (hx : Stores x q) (hy : Stores y r)

include hx

theorem eq_ofInt {count : ℤ} (h : q = count) : x = Float.ofInt count := by
  obtain ⟨hdenotes, other, hother, habs⟩ := hx
  obtain rfl : other = count := by exact_mod_cast hother.symm.trans h
  exact hdenotes.unique (denotes_ofInt habs) h

include hy

theorem sub (h : IsSmall (q - r)) : Stores (x - y) (q - r) :=
  ⟨hx.denotes.sub hy.denotes (isRepresentable_of_isSmall h), h⟩

theorem add (h : IsSmall (q + r)) : Stores (x + y) (q + r) :=
  ⟨hx.denotes.add hy.denotes (isRepresentable_of_isSmall h), h⟩

theorem mul (hq : 0 ≤ q) (hr : 0 ≤ r) (h : IsSmall (q * r)) : Stores (x * y) (q * r) :=
  ⟨hx.denotes.mul hy.denotes hq hr (isRepresentable_of_isSmall h), h⟩

theorem lesser : Stores (lesser x y) (lesser q r) where
  denotes := hx.denotes.lesser hy.denotes
  isSmall := by
    change IsSmall (min q r)
    rcases min_choice q r with h | h
    · rw [h]
      exact hx.isSmall
    · rw [h]
      exact hy.isSmall

theorem greater : Stores (greater x y) (greater q r) where
  denotes := hx.denotes.greater hy.denotes
  isSmall := by
    change IsSmall (max q r)
    rcases max_choice q r with h | h
    · rw [h]
      exact hx.isSmall
    · rw [h]
      exact hy.isSmall

end Stores

section Lists

variable {numbers : List Float} {exact : List ℚ}

theorem stores_least?_getD (h : List.Forall₂ Stores numbers exact) :
    Stores ((least? numbers).getD 0) ((least? exact).getD 0) := by
  cases h with
  | nil => exact stores_zero
  | cons hfirst hrest => exact List.rel_foldl (fun _ _ hx _ _ hy => hx.lesser hy) hfirst hrest

theorem stores_greatest?_getD (h : List.Forall₂ Stores numbers exact) :
    Stores ((greatest? numbers).getD 0) ((greatest? exact).getD 0) := by
  cases h with
  | nil => exact stores_zero
  | cons hfirst hrest => exact List.rel_foldl (fun _ _ hx _ _ hy => hx.greater hy) hfirst hrest

/-- Sums are exact as long as every partial sum has 53 bits. -/
theorem stores_foldl_add (h : List.Forall₂ Stores numbers exact) (hx : Stores x q)
    (hsums : ∀ count, IsSmall ((exact.take count).foldl (· + ·) q)) :
    Stores (numbers.foldl (· + ·) x) (exact.foldl (· + ·) q) := by
  induction h generalizing x q with
  | nil => exact hx
  | cons hfirst _ ih =>
      have hsum := hx.add hfirst (hsums 1)
      exact ih hsum fun count => hsums (count + 1)

/-- A sum is exact where all sums of its first terms are small. -/
theorem stores_total (h : List.Forall₂ Stores numbers exact)
    (hsums : ∀ count, IsSmall (total (exact.take count))) : Stores (total numbers) (total exact) :=
  stores_foldl_add h stores_zero hsums

end Lists

end Double

end Hungarian
