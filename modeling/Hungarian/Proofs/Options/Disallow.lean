import Mathlib.Data.List.Sort
import Hungarian.Arithmetic.Double
import Hungarian.Matrix.Build
import Hungarian.Proofs.Problem.Refusal
import Hungarian.Solve

/-!
# Forbidding pairs one after another

What forbidden pairs are stored as is determined by the rows that are listed and by the pairs that
are in it. One call lists its row and adds its pair, so that after any number of calls neither their
order nor their repetition can be told from the options, nor from anything that is computed with
them.
-/

namespace Hungarian

/-! ### Sets told apart by their members -/

theorem IndexSet.ext_of_mem {set other : IndexSet}
    (h : ∀ index, index ∈ set.toList ↔ index ∈ other.toList) : set = other := by
  obtain ⟨indices, hindices⟩ := set
  obtain ⟨others, hothers⟩ := other
  obtain rfl : indices = others := hindices.eq_of_mem_iff hothers h
  rfl

namespace ForbiddenPairs

variable {pairs other : ForbiddenPairs} {row col index : Nat} {pair : Nat × Nat}

def IsListed (pairs : ForbiddenPairs) (row : Nat) : Prop :=
  (pairs.entries.lookup row).isSome

theorem mem_entries_iff {set : IndexSet} :
    (row, set) ∈ pairs.entries ↔ pairs.entries.lookup row = some set := by
  have hascending := pairs.ascending
  generalize pairs.entries = entries at hascending ⊢
  induction entries with
  | nil => simp
  | cons head tail ih =>
      obtain ⟨hhead, htail⟩ := List.pairwise_cons.mp hascending
      have hrest : (row, set) ∈ tail ↔ tail.lookup row = some set := ih htail
      rw [List.mem_cons, lookup_cons, hrest]
      split
      · next heq =>
          have hnone : tail.lookup row = none :=
            lookup_eq_none_of_lt fun entry hentry => heq ▸ hhead entry hentry
          rw [hnone, Prod.ext_iff]
          simp [heq, eq_comm]
      · next hne => simp [Prod.ext_iff, hne]

theorem lookup_eq_some_columns (h : pairs.IsListed row) :
    pairs.entries.lookup row = some (pairs.columns row) := by
  obtain ⟨set, hset⟩ := Option.isSome_iff_exists.mp h
  rw [ForbiddenPairs.columns, hset, Option.getD_some]

/-- Forbidden pairs are told apart by their rows and their members. -/
theorem ext_of_mem (hlisted : ∀ row, pairs.IsListed row ↔ other.IsListed row)
    (hmem : ∀ pair, pair ∈ pairs.toList ↔ pair ∈ other.toList) : pairs = other := by
  have hcolumns : ∀ row, pairs.columns row = other.columns row := fun row =>
    IndexSet.ext_of_mem fun col => by rw [← mem_toList, ← mem_toList, hmem]
  have hlookup : ∀ row, pairs.entries.lookup row = other.entries.lookup row := by
    intro row
    by_cases hrow : pairs.IsListed row
    · rw [lookup_eq_some_columns hrow, lookup_eq_some_columns ((hlisted row).mp hrow), hcolumns]
    · have hrow' : ¬other.IsListed row := mt (hlisted row).mpr hrow
      rw [IsListed, Option.not_isSome_iff_eq_none] at hrow hrow'
      rw [hrow, hrow']
  have : Std.Irrefl fun first second : Nat × IndexSet => first.1 < second.1 :=
    ⟨fun entry => lt_irrefl entry.1⟩
  have : Std.Antisymm fun first second : Nat × IndexSet => first.1 < second.1 :=
    ⟨fun first second h h' => absurd h h'.not_gt⟩
  have hentries : pairs.entries = other.entries :=
    pairs.ascending.eq_of_mem_iff other.ascending fun entry => by
      rw [mem_entries_iff, mem_entries_iff, hlookup]
  cases pairs
  cases other
  cases hentries
  rfl

/-! ### One pair more -/

theorem isListed_insert :
    (pairs.insert row col).IsListed index ↔ index = row ∨ pairs.IsListed index := by
  unfold IsListed ForbiddenPairs.insert change
  rw [lookup_changeEntry pairs.ascending]
  split <;> simp [*]

theorem mem_toList_insert :
    pair ∈ (pairs.insert row col).toList ↔ pair = (row, col) ∨ pair ∈ pairs.toList := by
  obtain ⟨row', col'⟩ := pair
  rw [mem_toList, mem_toList, ForbiddenPairs.insert, columns_change, Prod.mk_inj]
  split
  · next heq => rw [IndexSet.mem_toList_insert, heq]; simp
  · next hne => simp [hne]

/-- What is counted set by set are the pairs. -/
theorem count_eq_length (pairs : ForbiddenPairs) : pairs.count = pairs.toList.length := by
  rw [count, toList, List.length_flatMap, List.sum_eq_foldl, List.foldl_map]
  simp [IndexSet.size]

end ForbiddenPairs

/-! ### Calls -/

namespace Options

variable {α : Type} {options : Options α} {calls calls' : List (Nat × Nat)} {pair : Nat × Nat}

def disallowAll (options : Options α) (calls : List (Nat × Nat)) : Options α :=
  calls.foldl (fun options call => options.disallow call.1 call.2) options

theorem disallowAll_cons (options : Options α) (call : Nat × Nat) (calls : List (Nat × Nat)) :
    options.disallowAll (call :: calls) =
      (options.disallow call.1 call.2).disallowAll calls := rfl

theorem isListed_disallowAll {row : Nat} : (options.disallowAll calls).disallowed.IsListed row ↔
    options.disallowed.IsListed row ∨ ∃ call ∈ calls, call.1 = row := by
  induction calls generalizing options with
  | nil => simp [disallowAll]
  | cons call calls ih =>
      rw [disallowAll_cons, ih, disallow, ForbiddenPairs.isListed_insert, List.exists_mem_cons_iff,
        eq_comm (a := row), or_comm (a := call.1 = row), or_assoc]

theorem mem_disallowAll : pair ∈ (options.disallowAll calls).disallowed.toList ↔
    pair ∈ options.disallowed.toList ∨ pair ∈ calls := by
  induction calls generalizing options with
  | nil => simp [disallowAll]
  | cons call calls ih =>
      rw [disallowAll_cons, ih, disallow, ForbiddenPairs.mem_toList_insert, List.mem_cons,
        or_comm (a := pair = _), or_assoc]

/-- Calls change nothing but the forbidden pairs. -/
theorem disallowAll_eq_withDisallowed (options : Options α) (calls : List (Nat × Nat)) :
    options.disallowAll calls =
      options.withDisallowed (options.disallowAll calls).disallowed := by
  induction calls generalizing options with
  | nil => rfl
  | cons call calls ih => exact ih (options.disallow call.1 call.2)

/-- The order of the calls and their repetition leave no trace. -/
theorem disallowAll_eq_of_mem_iff (h : ∀ pair, pair ∈ calls' ↔ pair ∈ calls) :
    options.disallowAll calls' = options.disallowAll calls := by
  have hdisallowed : (options.disallowAll calls').disallowed =
      (options.disallowAll calls).disallowed := by
    refine ForbiddenPairs.ext_of_mem (fun row => ?_) fun pair => ?_
    · simp only [isListed_disallowAll, h]
    · rw [mem_disallowAll, mem_disallowAll, h]
  rw [disallowAll_eq_withDisallowed options calls', hdisallowed, ← disallowAll_eq_withDisallowed]

structure Collects (options : Options α) (calls : List (Nat × Nat)) (result : Options α) :
    Prop where
  ascending : result.disallowed.toList.Pairwise fun pair other => toLex pair < toLex other
  mem_iff : ∀ pair, pair ∈ result.disallowed.toList ↔
    pair ∈ options.disallowed.toList ∨ pair ∈ calls
  count_eq : result.disallowed.count = result.disallowed.toList.length
  rest_eq : result = options.withDisallowed result.disallowed

theorem collects_disallowAll (options : Options α) (calls : List (Nat × Nat)) :
    options.Collects calls (options.disallowAll calls) where
  ascending := ForbiddenPairs.pairwise_toList _
  mem_iff _ := mem_disallowAll
  count_eq := ForbiddenPairs.count_eq_length _
  rest_eq := disallowAll_eq_withDisallowed options calls

/-- The pairs outside a shape among those before the calls and those of the calls. -/
def outsideOf (options : Options α) (calls : List (Nat × Nat)) (rows cols : Nat) :
    Set (ℕ ×ₗ ℕ) :=
  { place | (ofLex place ∈ options.disallowed.toList ∨ ofLex place ∈ calls) ∧
    (rows ≤ (ofLex place).1 ∨ cols ≤ (ofLex place).2) }

variable [CostArithmetic α]

theorem validate_disallowAll_eq_iff {rows cols row col : Nat} :
    (options.disallowAll calls).validate rows cols =
        .error (.disallowedOutOfRange row col rows cols) ↔
      IsLeast (options.outsideOf calls rows cols) (toLex (row, col)) := by
  rw [validate_eq_disallowedOutOfRange_iff]
  refine and_congr ?_ ?_
  · rw [mem_disallowAll]
    rfl
  · simp only [mem_disallowAll]
    exact ⟨fun h place hplace => h (ofLex place) hplace.1 hplace.2,
      fun h pair hpair houtside => h ⟨hpair, houtside⟩⟩

/-- **Forbidding pairs.** Whatever the options, calls in any order and with any repetition leave the
pairs from before and those of the calls, each once and in ascending order, and the rest of the
options as it was. The pair that is refused is the least of those outside the matrix, and two
sequences of calls for the same pairs leave equal options, with which every matrix has the same
answer and the same log. -/
theorem collects_and_eq_of_same_pairs (options : Options α) (calls : List (Nat × Nat)) :
    options.Collects calls (options.disallowAll calls) ∧
    (∀ rows cols row col, (options.disallowAll calls).validate rows cols =
        .error (.disallowedOutOfRange row col rows cols) ↔
      IsLeast (options.outsideOf calls rows cols) (toLex (row, col))) ∧
    ∀ calls' : List (Nat × Nat), (∀ pair, pair ∈ calls' ↔ pair ∈ calls) →
      options.disallowAll calls' = options.disallowAll calls ∧
      ∀ matrix, solve matrix (options.disallowAll calls') =
          solve matrix (options.disallowAll calls) ∧
        solveReport matrix (options.disallowAll calls') =
          solveReport matrix (options.disallowAll calls) := by
  refine ⟨collects_disallowAll options calls,
    fun rows cols row col => validate_disallowAll_eq_iff, fun calls' hsame => ?_⟩
  have heq : options.disallowAll calls' = options.disallowAll calls :=
    disallowAll_eq_of_mem_iff hsame
  refine ⟨heq, fun matrix => ?_⟩
  rw [heq]
  exact ⟨rfl, rfl⟩

def listedOptions : Options Float :=
  Options.standard.withDisallowed (.ofList [(4, .empty), (1, .ofList [1])])

/-- One pair is forbidden twice, and another one was so before the calls. The pair that is refused
is neither the first nor the last one that was forbidden. -/
theorem collects_and_eq_of_same_pairs_listed :
    (∀ pair, pair ∈ [(1, 1), (0, 2), (5, 1)] ↔ pair ∈ [(5, 1), (0, 2), (5, 1), (1, 1)]) ∧
    (listedOptions.disallowAll [(5, 1), (0, 2), (5, 1), (1, 1)]).disallowed.toList =
      [(0, 2), (1, 1), (5, 1)] ∧
    listedOptions.Collects [(5, 1), (0, 2), (5, 1), (1, 1)]
      (listedOptions.disallowAll [(5, 1), (0, 2), (5, 1), (1, 1)]) ∧
    listedOptions.disallowAll [(1, 1), (0, 2), (5, 1)] =
      listedOptions.disallowAll [(5, 1), (0, 2), (5, 1), (1, 1)] ∧
    (CostMatrix.zeros 2 2).bind
        (fun matrix => solve matrix (listedOptions.disallowAll [(1, 1), (0, 2), (5, 1)])) =
      .error (.refused (.disallowedOutOfRange 0 2 2 2)) ∧
    IsLeast (listedOptions.outsideOf [(5, 1), (0, 2), (5, 1), (1, 1)] 2 2) (toLex (0, 2)) := by
  have hsame : ∀ pair, pair ∈ [(1, 1), (0, 2), (5, 1)] ↔
      pair ∈ [(5, 1), (0, 2), (5, 1), (1, 1)] := by
    intro pair
    simp only [List.mem_cons, List.not_mem_nil]
    tauto
  obtain ⟨hcollects, hrefused, horder⟩ :=
    collects_and_eq_of_same_pairs listedOptions [(5, 1), (0, 2), (5, 1), (1, 1)]
  obtain ⟨heq, hsolve⟩ := horder _ hsame
  refine ⟨hsame, ?_, hcollects, heq, ?_, (hrefused 2 2 0 2).mp ?_⟩
  · decide +kernel
  · simp only [fun matrix => (hsolve matrix).1]
    decide +kernel
  · decide +kernel

end Options

end Hungarian
