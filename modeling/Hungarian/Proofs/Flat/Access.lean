import Mathlib.Data.List.FinRange
import Mathlib.Data.List.Induction
import Mathlib.Data.List.OfFn
import Mathlib.Data.List.Triplewise
import Mathlib.Logic.Equiv.Fin.Basic
import Hungarian.Error
import Hungarian.Square

/-!
# Tables in flat arrays

The layout in which a solver keeps its tables: a square row after row in one array, and indices as
plain numbers. A read or a write names the index it is made at, and an index outside the array is a
fault. At the indices of a vector or of a square no access to its array faults.
-/

namespace Hungarian

namespace Flat

variable {α β σ τ : Type}

/-- What comes of accesses to arrays: a result, or the failure of the first that has none. -/
abbrev Checked (α : Type) := Except (Failure α)

def outOfRange : Checked α β :=
  .error (.faulted .outOfRange)

def read (entries : Array β) (index : Nat) : Checked α β :=
  match entries[index]? with
  | some entry => pure entry
  | none => outOfRange

def write (entries : Array β) (index : Nat) (entry : β) : Checked α (Array β) :=
  if index < entries.size then pure (entries.setIfInBounds index entry) else outOfRange

def andAlso (test : Bool) (check : Checked α Bool) : Checked α Bool :=
  if test then check else pure false

theorem andAlso_pure (test result : Bool) :
    (andAlso test (pure result) : Checked α Bool) = pure (test && result) := by
  cases test <;> rfl

def slice (entries : Array β) (start count : Nat) : Checked α (List β) :=
  if start + count ≤ entries.size then pure ((entries.toList.drop start).take count)
  else outOfRange

def writeAll (entries : Array β) (writes : List (Nat × β)) : Checked α (Array β) :=
  writes.foldlM (fun entries place => write entries place.1 place.2) entries

/-! ### Vectors -/

variable {size : Nat}

@[simp]
theorem read_toArray (entries : Vector β size) (index : Fin size) :
    (read entries.toArray index : Checked α β) = pure (entries.get index) := by
  have hget : entries.toArray[index.val]? = some (entries.get index) :=
    Vector.getElem?_toArray.trans (Vector.getElem?_eq_getElem index.isLt)
  rw [read, hget]

@[simp]
theorem write_toArray (entries : Vector β size) (index : Fin size) (entry : β) :
    (write entries.toArray index entry : Checked α (Array β)) =
      pure (entries.set index entry index.isLt).toArray := by
  rw [write, if_pos (by simp), Vector.toArray_set, Array.setIfInBounds_def, dif_pos (by simp)]

@[simp]
theorem get_map {γ : Type} (f : β → γ) (entries : Vector β size) (index : Fin size) :
    (entries.map f).get index = f (entries.get index) :=
  Vector.getElem_map f index.isLt

theorem write_map {γ : Type} (f : β → γ) (entries : Vector β size) (index : Fin size) (entry : β) :
    (write (entries.map f).toArray index (f entry) : Checked α (Array γ)) =
      pure ((entries.set index entry index.isLt).map f).toArray := by
  rw [write_toArray, Vector.map_set]

theorem toArray_map_get (entries : Vector β size) :
    ((List.finRange size).map entries.get).toArray = entries.toArray := by
  rw [← List.ofFn_eq_map, ← toList_eq_ofFn_get]
  rfl

theorem zipWith_toArray {γ δ : Type} (f : β → γ → δ) (entries : Vector β size)
    (others : Vector γ size) : Array.zipWith f entries.toArray others.toArray =
      (Vector.ofFn fun index => f (entries.get index) (others.get index)).toArray := by
  rw [← Vector.toArray_zipWith]
  refine congrArg Vector.toArray (vector_ext fun index => ?_)
  rw [get_ofFn]
  exact Vector.getElem_zipWith index.isLt

/-! ### Vectors updated from the front -/

section Updates

variable (entries : Vector β size) (isTaken : Fin size → Bool) (entry : Fin size → β)

/-- The vector after those of its first places that are taken have got their entries. -/
def updated (count : Nat) : Vector β size :=
  .ofFn fun index => if index < count ∧ isTaken index then entry index else entries.get index

theorem get_updated (count : Nat) (index : Fin size) :
    (updated entries isTaken entry count).get index =
      if index < count ∧ isTaken index then entry index else entries.get index :=
  get_ofFn _ index

theorem updated_zero : updated entries isTaken entry 0 = entries :=
  vector_ext fun index =>
    (get_updated ..).trans (if_neg fun h => Nat.not_lt_zero index h.1)

theorem get_updated_self (index : Fin size) :
    (updated entries isTaken entry index).get index = entries.get index :=
  (get_updated ..).trans (if_neg fun h => Nat.lt_irrefl index h.1)

theorem updated_size : updated entries isTaken entry size =
    .ofFn fun index => if isTaken index then entry index else entries.get index :=
  vector_ext fun index => by
    rw [get_updated, get_ofFn]
    simp only [index.isLt, true_and]

/-- One more place counts. -/
theorem updated_succ (index : Fin size) : updated entries isTaken entry (index + 1) =
    if isTaken index then
      (updated entries isTaken entry index).set index (entry index) index.isLt
    else updated entries isTaken entry index := by
  refine vector_ext fun other => ?_
  by_cases hother : other = index
  · subst hother
    cases htaken : isTaken other <;> simp [get_set, get_updated, htaken]
  · have hlt : other.val < index + 1 ↔ other < index :=
      Nat.lt_succ_iff_lt_or_eq.trans (or_iff_left fun heq => hother (Fin.ext heq))
    cases isTaken index <;> simp [get_set, get_updated, hother, hlt]

end Updates

/-! ### Loops -/

/-- A loop whose steps cannot fail on the states in view. -/
theorem foldlM_view (view : τ → σ) {step : σ → β → Checked α σ} {next : τ → β → τ}
    (h : ∀ state entry, step (view state) entry = pure (view (next state entry)))
    (entries : List β) (state : τ) :
    entries.foldlM step (view state) = pure (view (entries.foldl next state)) := by
  induction entries generalizing state with
  | nil => rfl
  | cons entry rest ih => rw [List.foldlM_cons, h, pure_bind, ih, List.foldl_cons]

/-- A loop over the indices up to a number, with its state before each of them. -/
theorem foldlM_range {step : σ → Nat → Checked α σ} (states : Nat → σ)
    (h : ∀ index < size, step (states index) index = pure (states (index + 1))) :
    (List.range size).foldlM step (states 0) = pure (states size) := by
  induction size with
  | zero => rfl
  | succ count ih =>
      rw [List.range_succ, List.foldlM_append,
        ih fun index hindex => h index (Nat.lt_succ_of_lt hindex), pure_bind, List.foldlM_cons,
        h count (Nat.lt_succ_self count), pure_bind, List.foldlM_nil]

theorem allM_eq {step : σ → Checked α Bool} {view : τ → σ} {test : τ → Bool}
    (h : ∀ entry, step (view entry) = pure (test entry)) (entries : List τ) :
    (entries.map view).allM step = pure (entries.all test) := by
  induction entries with
  | nil => rfl
  | cons entry rest ih =>
      rw [List.map_cons, List.allM, h, pure_bind, List.all_cons, ih]
      cases test entry <;> rfl

theorem exists_of_mapM_eq_ok {step : β → Checked α σ} {entries : List β} {results : List σ}
    (h : entries.mapM step = .ok results) {entry : β} (hentry : entry ∈ entries) :
    ∃ result, step entry = .ok result := by
  induction entries generalizing results with
  | nil => exact absurd hentry List.not_mem_nil
  | cons first rest ih =>
      rw [List.mapM_cons] at h
      obtain ⟨result, hfirst, hnext⟩ := exists_of_bind_eq_ok h
      obtain ⟨others, hrest, -⟩ := exists_of_bind_eq_ok hnext
      rcases List.mem_cons.mp hentry with rfl | hentry
      · exact ⟨result, hfirst⟩
      · exact ih hrest hentry

theorem foldlM_range_eq (step : σ → Nat → Checked α σ) (state : σ) :
    (List.range size).foldlM step state =
      (List.finRange size).foldlM (fun state index => step state index.val) state := by
  rw [← List.map_coe_finRange_eq_range, List.foldlM_map]

theorem mapM_range {step : Nat → Checked α β} {entry : Fin size → β}
    (h : ∀ index : Fin size, step index = pure (entry index)) :
    (List.range size).mapM step = pure ((List.finRange size).map entry) := by
  rw [← List.map_coe_finRange_eq_range, List.mapM_map, ← List.mapM_pure]
  exact congrArg (fun step => List.mapM step (List.finRange size)) (funext h)

theorem allM_range {step : Nat → Checked α Bool} {test : Fin size → Bool}
    (h : ∀ index : Fin size, step index = pure (test index)) :
    (List.range size).allM step = pure ((List.finRange size).all test) := by
  rw [← List.map_coe_finRange_eq_range]
  exact allM_eq h _

/-! ### Writes -/

/-- The array after writes, of which the last one to an index counts. -/
def written (entries : Array β) (writes : List (Nat × β)) : Array β :=
  writes.foldl (fun entries place => entries.setIfInBounds place.1 place.2) entries

theorem size_written (entries : Array β) (writes : List (Nat × β)) :
    (written entries writes).size = entries.size := by
  induction writes generalizing entries with
  | nil => rfl
  | cons place rest ih => exact (ih _).trans Array.size_setIfInBounds

/-- Writes inside an array all succeed. -/
theorem writeAll_eq {entries : Array β} {writes : List (Nat × β)}
    (h : ∀ place ∈ writes, place.1 < entries.size) :
    (writeAll entries writes : Checked α (Array β)) = pure (written entries writes) := by
  unfold writeAll written
  induction writes generalizing entries with
  | nil => rfl
  | cons place rest ih =>
      obtain ⟨hplace, hrest⟩ := List.forall_mem_cons.mp h
      rw [List.foldlM_cons, write, if_pos hplace, pure_bind, List.foldl_cons]
      apply ih
      rwa [Array.size_setIfInBounds]

theorem size_of_writeAll {entries written : Array β} {writes : List (Nat × β)}
    (h : (writeAll entries writes : Checked α (Array β)) = .ok written) :
    written.size = entries.size := by
  unfold writeAll at h
  induction writes generalizing entries with
  | nil =>
      cases h
      rfl
  | cons place rest ih =>
      rw [List.foldlM_cons, write] at h
      split at h
      · rw [pure_bind] at h
        rw [ih h, Array.size_setIfInBounds]
      · cases h

/-- One write outside fails, whatever the others do. -/
theorem writeAll_eq_outOfRange {entries : Array β} {writes : List (Nat × β)} {place : Nat × β}
    (hplace : place ∈ writes) (h : entries.size ≤ place.1) :
    (writeAll entries writes : Checked α (Array β)) = outOfRange := by
  unfold writeAll
  induction writes generalizing entries with
  | nil => exact absurd hplace List.not_mem_nil
  | cons first rest ih =>
      rw [List.foldlM_cons, write]
      split
      · next hfirst =>
          rw [pure_bind]
          rcases List.mem_cons.mp hplace with rfl | hrest
          · exact absurd hfirst (Nat.not_lt.mpr h)
          · exact ih hrest (by rwa [Array.size_setIfInBounds])
      · rfl

/-- The last write to a place is what is read there. -/
theorem getElem?_written {entries : Array β} {writes : List (Nat × β)} {index : Nat}
    (h : index < entries.size) : (written entries writes)[index]? =
      ((writes.reverse.find? fun place => place.1 == index).map Prod.snd).or entries[index]? := by
  induction writes using List.reverseRecOn with
  | nil => rfl
  | append_singleton rest place ih =>
      rw [written, List.foldl_append, List.foldl_cons, List.foldl_nil, ← written,
        Array.getElem?_setIfInBounds, size_written, List.reverse_append, List.reverse_singleton,
        List.singleton_append, List.find?_cons]
      by_cases hplace : place.1 = index
      · simp [hplace, h]
      · rw [if_neg hplace, beq_false_of_ne hplace, ih]

/-- Values written to an array without any: each index has the last one written to it. -/
theorem toList_written_none (count : Nat) (writes : List β) (key value : β → Nat) :
    (written (Array.replicate count none)
      (writes.map fun entry => (key entry, some (value entry)))).toList =
      (List.range count).map fun index =>
        (writes.reverse.find? fun entry => key entry == index).map value := by
  refine List.ext_getElem? fun index => ?_
  rw [Array.getElem?_toList]
  by_cases hindex : index < count
  · rw [getElem?_written (by rwa [Array.size_replicate]), ← List.map_reverse, List.find?_map,
      Array.getElem?_replicate, if_pos hindex, List.getElem?_map, List.getElem?_range hindex,
      Option.map_some]
    change ((Option.map _ (writes.reverse.find? fun entry => key entry == index)).map _).or _ = _
    cases writes.reverse.find? fun entry => key entry == index <;> rfl
  · rw [Array.getElem?_eq_none, List.getElem?_eq_none]
    · rw [List.length_map, List.length_range]
      exact Nat.le_of_not_lt hindex
    · rw [size_written, Array.size_replicate]
      exact Nat.le_of_not_lt hindex

end Flat

/-! ### Squares -/

namespace Square

variable {α β : Type} {size : Nat}

def flat (square : Square β size) : Array β :=
  Array.ofFn fun index : Fin (size * size) => square.get index.divNat index.modNat

theorem size_flat (square : Square β size) : square.flat.size = size * size :=
  Array.size_ofFn

theorem index_lt {row col : Nat} (hrow : row < size) (hcol : col < size) :
    row * size + col < size * size := by
  rw [Nat.mul_comm row]
  exact Nat.mul_add_lt_mul_of_lt_of_lt hrow hcol

theorem index_div {row col : Nat} (hcol : col < size) : (row * size + col) / size = row := by
  rw [Nat.add_comm, Nat.add_mul_div_right _ _ (Nat.zero_lt_of_lt hcol), Nat.div_eq_of_lt hcol,
    Nat.zero_add]

theorem index_mod {row col : Nat} (hcol : col < size) : (row * size + col) % size = col := by
  rw [Nat.add_comm, Nat.add_mul_mod_self_right, Nat.mod_eq_of_lt hcol]

/-- Two places of a square never share an index. -/
theorem index_inj {row row' col col' : Nat} (hcol : col < size) (hcol' : col' < size)
    (h : row * size + col = row' * size + col') : row = row' ∧ col = col' := by
  have hrow := congrArg (· / size) h
  have hrest := congrArg (· % size) h
  simp only [index_div hcol, index_div hcol', index_mod hcol, index_mod hcol'] at hrow hrest
  exact ⟨hrow, hrest⟩

theorem divNat_index (row col : Fin size) :
    (⟨row * size + col, index_lt row.isLt col.isLt⟩ : Fin (size * size)).divNat = row :=
  Fin.ext (index_div col.isLt)

theorem modNat_index (row col : Fin size) :
    (⟨row * size + col, index_lt row.isLt col.isLt⟩ : Fin (size * size)).modNat = col :=
  Fin.ext (index_mod col.isLt)

theorem getElem?_flat (square : Square β size) (row col : Fin size) :
    square.flat[row * size + col]? = some (square.get row col) := by
  rw [flat, Array.getElem?_ofFn, dif_pos (index_lt row.isLt col.isLt), divNat_index, modNat_index]

@[simp]
theorem read_flat (square : Square β size) (row col : Fin size) :
    (Flat.read square.flat (row * size + col) : Flat.Checked α β) = pure (square.get row col) := by
  rw [Flat.read, getElem?_flat]

/-- An array is a square if it has all of its entries where they belong. -/
theorem eq_flat {entries : Array β} {square : Square β size} (hsize : entries.size = size * size)
    (hget : ∀ row col : Fin size, entries[row * size + col]? = some (square.get row col)) :
    entries = square.flat := by
  refine Array.ext_getElem? fun index => ?_
  by_cases hindex : index < size * size
  · have hpos : 0 < size := Nat.pos_of_ne_zero fun hzero => by simp [hzero] at hindex
    have hplace := hget ⟨index / size, Nat.div_lt_of_lt_mul hindex⟩
      ⟨index % size, Nat.mod_lt index hpos⟩
    have hplace' := square.getElem?_flat ⟨index / size, Nat.div_lt_of_lt_mul hindex⟩
      ⟨index % size, Nat.mod_lt index hpos⟩
    rw [Nat.div_add_mod'] at hplace hplace'
    exact hplace.trans hplace'.symm
  · rw [Array.getElem?_eq_none (by omega), Array.getElem?_eq_none (by rw [size_flat]; omega)]

/-- A square of one value and the cells written to it, of which the last one to a place counts. -/
theorem writeAll_replicate {writes : List (Nat × β)} {value : β} {square : Square β size}
    (hinside : ∀ place ∈ writes, place.1 < size * size)
    (hget : ∀ row col : Fin size,
      ((writes.reverse.find? fun place => place.1 == row * size + col).map Prod.snd).getD value =
        square.get row col) :
    (Flat.writeAll (Array.replicate (size * size) value) writes : Flat.Checked α (Array β)) =
      pure square.flat := by
  have hsize : (Array.replicate (size * size) value).size = size * size := Array.size_replicate
  rw [Flat.writeAll_eq fun place hplace => hsize.symm ▸ hinside place hplace]
  refine congrArg pure (eq_flat ((Flat.size_written ..).trans hsize) fun row col => ?_)
  have hindex := index_lt row.isLt col.isLt
  rw [Flat.getElem?_written (by rwa [hsize]), Array.getElem?_replicate, if_pos hindex,
    Option.or_some, hget]

theorem toList_eq_map_places (square : Square β size) :
    square.toList = (places size).map fun place => square.get place.1 place.2 := by
  rw [toList, toList_eq_ofFn_get, List.ofFn_eq_map, List.flatMap_map, places, List.map_flatMap]
  refine List.flatMap_congr fun row _ => ?_
  rw [toList_eq_ofFn_get, List.ofFn_eq_map, List.map_map]
  rfl

@[simp]
theorem toList_flat (square : Square β size) : square.flat.toList = square.toList := by
  have hrows (row : Fin size) : (square.rows.get row).toList = List.ofFn (square.get row) :=
    toList_eq_ofFn_get _
  rw [flat, Array.toList_ofFn, List.ofFn_mul, toList, toList_eq_ofFn_get, List.flatMap_def,
    List.map_ofFn]
  simp only [Function.comp_def, hrows, divNat_index, modNat_index]

theorem slice_flat (square : Square β size) (row : Fin size) :
    (Flat.slice square.flat (row * size) size : Flat.Checked α (List β)) =
      pure (square.row row).toList := by
  have hend : row * size + size ≤ size * size := by
    rw [← Nat.succ_mul]
    exact Nat.mul_le_mul_right _ row.isLt
  rw [Flat.slice, size_flat, if_pos hend]
  refine congrArg pure (List.ext_getElem? fun index => ?_)
  by_cases hindex : index < size
  · have hcol : (square.row row).toList[index]? = some (square.get row ⟨index, hindex⟩) :=
      (Vector.getElem?_toList).trans (Vector.getElem?_eq_getElem hindex)
    rw [List.getElem?_take_of_lt hindex, List.getElem?_drop, Array.getElem?_toList, hcol]
    exact square.getElem?_flat row ⟨index, hindex⟩
  · rw [List.getElem?_eq_none, List.getElem?_eq_none]
    · rw [Vector.length_toList]
      omega
    · exact (List.length_take_le _ _).trans (Nat.le_of_not_lt hindex)

theorem map_flat {γ : Type} (f : β → γ) (square : Square β size) :
    square.flat.map f = (Square.ofFn fun row col => f (square.get row col)).flat := by
  apply eq_flat
  · rw [Array.size_map, size_flat]
  · intro row col
    rw [Array.getElem?_map, getElem?_flat, get_ofFn, Option.map_some]

theorem zipWith_flat {γ δ : Type} (f : β → γ → δ) (square : Square β size)
    (other : Square γ size) : Array.zipWith f square.flat other.flat =
      (Square.ofFn fun row col => f (square.get row col) (other.get row col)).flat := by
  apply eq_flat
  · rw [Array.size_zipWith, size_flat, size_flat, Nat.min_self]
  · intro row col
    rw [Array.getElem?_zipWith, getElem?_flat, getElem?_flat, get_ofFn]

end Square

end Hungarian
