/-!
Tables with as many rows as columns, and the reading of vectors by index.
-/

namespace Hungarian

section Vectors

variable {α : Type} {size : Nat}

theorem get_ofFn (entry : Fin size → α) (index : Fin size) :
    (Vector.ofFn entry).get index = entry index :=
  Vector.getElem_ofFn index.isLt

theorem get_replicate (value : α) (index : Fin size) :
    (Vector.replicate size value).get index = value :=
  Vector.getElem_replicate index.isLt

theorem get_set (entries : Vector α size) (index other : Fin size) (value : α) :
    (entries.set index value index.isLt).get other =
      if other = index then value else entries.get other := by
  refine (Vector.getElem_set index.isLt other.isLt).trans ?_
  by_cases h : other = index
  · rw [if_pos h, if_pos (congrArg Fin.val h.symm)]
  · rw [if_neg h, if_neg fun hval => h (Fin.ext hval.symm)]
    rfl

theorem vector_ext {first second : Vector α size}
    (h : ∀ index, first.get index = second.get index) : first = second :=
  Vector.ext fun index inside => h ⟨index, inside⟩

theorem toList_eq_ofFn_get (entries : Vector α size) : entries.toList = List.ofFn entries.get := by
  rw [← Vector.toList_ofFn]
  exact congrArg Vector.toList (vector_ext fun index => (get_ofFn entries.get index).symm)

theorem mem_toList_iff_get {entries : Vector α size} {value : α} :
    value ∈ entries.toList ↔ ∃ index, entries.get index = value := by
  rw [toList_eq_ofFn_get, List.mem_ofFn]

end Vectors

structure Square (α : Type) (size : Nat) where
  rows : Vector (Vector α size) size
deriving DecidableEq, Repr

namespace Square

variable {α : Type} {size : Nat}

def row (square : Square α size) (row : Fin size) : Vector α size :=
  square.rows.get row

def get (square : Square α size) (row col : Fin size) : α :=
  (square.row row).get col

def ofFn (entry : Fin size → Fin size → α) : Square α size :=
  ⟨Vector.ofFn fun row => Vector.ofFn fun col => entry row col⟩

def toList (square : Square α size) : List α :=
  square.rows.toList.flatMap Vector.toList

def places (size : Nat) : List (Fin size × Fin size) :=
  (List.finRange size).flatMap fun row => (List.finRange size).map fun col => (row, col)

@[simp]
theorem get_ofFn (entry : Fin size → Fin size → α) (row col : Fin size) :
    (ofFn entry).get row col = entry row col := by
  unfold get Square.row ofFn
  rw [Hungarian.get_ofFn, Hungarian.get_ofFn]

@[ext]
theorem ext {first second : Square α size}
    (h : ∀ row col, first.get row col = second.get row col) : first = second := by
  cases first with
  | mk first =>
    cases second with
    | mk second =>
      exact congrArg Square.mk (vector_ext fun row => vector_ext fun col => h row col)

theorem mem_toList {square : Square α size} {value : α} :
    value ∈ square.toList ↔ ∃ row col, square.get row col = value := by
  simp only [toList, List.mem_flatMap, mem_toList_iff_get]
  constructor
  · rintro ⟨entries, ⟨row, rfl⟩, col, hcol⟩
    exact ⟨row, col, hcol⟩
  · rintro ⟨row, col, hcol⟩
    exact ⟨square.row row, ⟨row, rfl⟩, col, hcol⟩

@[simp]
theorem mem_places (place : Fin size × Fin size) : place ∈ places size := by
  simp only [places, List.mem_flatMap, List.mem_map, List.mem_finRange, true_and]
  exact ⟨place.1, place.2, rfl⟩

end Square

end Hungarian
