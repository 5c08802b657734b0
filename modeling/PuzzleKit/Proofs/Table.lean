import Mathlib.Data.Fin.Basic
import Mathlib.Data.List.FinRange
import Mathlib.Data.List.OfFn
import PuzzleKit.Table

/-!
# Tables by their cells

A table is nothing but its cells, and so are the list of its rows and the list of its
cells column by column: there the cell of row `i` and column `j` has the place
`j * m + i`, which no other cell has (`columnMajor_eq_iff`).
-/

namespace PuzzleKit.Table

variable {α β : Type} {m n : Nat} {t t' : Table α m n}

theorem ext_cell (h : ∀ i j, t.cell i j = t'.cell i j) : t = t' :=
  Vector.ext fun i hi => Vector.ext fun j hj => h ⟨i, hi⟩ ⟨j, hj⟩

theorem cell_ofFn (f : Fin m → Fin n → α) (i : Fin m) (j : Fin n) : (ofFn f).cell i j = f i j := by
  change (ofFn f)[i.val][j.val] = f i j
  simp only [ofFn, Vector.getElem_ofFn]

@[simp] theorem cell_mapCells (f : α → β) (t : Table α m n) (i : Fin m) (j : Fin n) :
    (t.mapCells f).cell i j = f (t.cell i j) := by
  change (t.mapCells f)[i.val][j.val] = f t[i.val][j.val]
  simp only [mapCells, Vector.getElem_map]

theorem cell_setCell (t : Table α m n) (i i' : Fin m) (j j' : Fin n) (a : α) :
    (t.setCell i j a).cell i' j' = if i' = i ∧ j' = j then a else t.cell i' j' := by
  change (t.set i ((t.get i).set j a j.isLt) i.isLt)[i'.val][j'.val] = _
  rw [Vector.getElem_set]
  by_cases hrow : i' = i
  · subst hrow
    rw [if_pos rfl, Vector.getElem_set]
    by_cases hcolumn : j' = j
    · subst hcolumn
      rw [if_pos rfl, if_pos ⟨rfl, rfl⟩]
    · rw [if_neg fun h => hcolumn (Fin.ext h.symm), if_neg fun h => hcolumn h.2]
      rfl
  · rw [if_neg fun h => hrow (Fin.ext h.symm), if_neg fun h => hrow h.1]
    rfl

theorem cell?_eq_some (t : Table α m n) (i : Fin m) (j : Fin n) :
    t.cell? i j = some (t.cell i j) := by
  have hrow : t[i.val]? = some (t.get i) := Vector.getElem?_eq_getElem i.isLt
  have hcell : (t.get i)[j.val]? = some ((t.get i).get j) := Vector.getElem?_eq_getElem j.isLt
  rw [cell?, hrow]
  exact hcell

theorem mem_row_iff {row : Vector α n} {a : α} : a ∈ row ↔ ∃ j, row.get j = a := by
  rw [Vector.mem_iff_getElem]
  exact ⟨fun ⟨j, hj, h⟩ => ⟨⟨j, hj⟩, h⟩, fun ⟨j, h⟩ => ⟨j.val, j.isLt, h⟩⟩

/-! ## The list of rows -/

theorem toLists_eq (t : Table α m n) : t.toLists = t.toList.map Vector.toList :=
  Vector.toList_map

/-- The rows of a table whose cells depend on the numbers of row and column. -/
theorem toLists_ofFn (f : Nat → Nat → α) :
    (ofFn fun i j => f i j : Table α m n).toLists =
      (List.range m).map fun i => (List.range n).map (f i) := by
  have hrange : ∀ {β : Type} (k : Nat) (f : Nat → β),
      (List.ofFn fun i : Fin k => f i) = (List.range k).map f := by
    intro β k f
    rw [List.ofFn_eq_map, ← List.map_coe_finRange_eq_range, List.map_map]
    rfl
  rw [toLists_eq, ofFn, Vector.toList_ofFn, List.map_ofFn, ← hrange]
  exact congrArg List.ofFn (funext fun i => Vector.toList_ofFn.trans (hrange n (f i)))

theorem length_toLists (t : Table α m n) : t.toLists.length = m := Vector.length_toList

theorem getElem_toLists (t : Table α m n) {i : Nat} (hi : i < t.toLists.length) :
    t.toLists[i] = (t.get ⟨i, t.length_toLists ▸ hi⟩).toList := by
  simp only [toLists_eq, List.getElem_map]
  rfl

theorem length_of_mem_toLists {row : List α} (h : row ∈ t.toLists) : row.length = n := by
  rw [toLists_eq] at h
  obtain ⟨cells, -, rfl⟩ := List.mem_map.mp h
  exact cells.length_toList

theorem exists_cell_of_mem {row : List α} {a : α} (hrow : row ∈ t.toLists) (ha : a ∈ row) :
    ∃ i j, t.cell i j = a := by
  obtain ⟨i, hi, rfl⟩ := List.mem_iff_getElem.mp hrow
  rw [getElem_toLists] at ha
  obtain ⟨j, hj, rfl⟩ := List.mem_iff_getElem.mp ha
  exact ⟨⟨i, t.length_toLists ▸ hi⟩, ⟨j, Nat.lt_of_lt_of_eq hj Vector.length_toList⟩, rfl⟩

/-- The last cell of a row that is not the last one. -/
theorem exists_cell_of_mem_dropLast {row : List α} {a : α} (hrow : row ∈ t.toLists.dropLast)
    (ha : row.getLast? = some a) :
    ∃ i j, i.val + 1 < m ∧ j.val + 1 = n ∧ t.cell i j = a := by
  obtain ⟨i, hi, rfl⟩ := List.mem_iff_getElem.mp hrow
  rw [List.length_dropLast, length_toLists] at hi
  rw [List.getElem_dropLast, getElem_toLists, List.getLast?_eq_getElem?,
    Vector.length_toList, List.getElem?_eq_some_iff] at ha
  obtain ⟨hj, rfl⟩ := ha
  rw [Vector.length_toList] at hj
  exact ⟨⟨i, by omega⟩, ⟨n - 1, hj⟩, Nat.add_lt_of_lt_sub hi, Nat.sub_add_cancel (by omega), rfl⟩

/-! ## The list of cells, column by column -/

theorem columnMajor_mod (i : Fin m) (j : Fin n) : (j.val * m + i.val) % m = i.val := by
  rw [Nat.add_comm, Nat.add_mul_mod_self_right, Nat.mod_eq_of_lt i.isLt]

theorem columnMajor_div (i : Fin m) (j : Fin n) : (j.val * m + i.val) / m = j.val := by
  rw [Nat.mul_comm, Nat.mul_add_div i.pos, Nat.div_eq_of_lt i.isLt, Nat.add_zero]

/-- Every place in the list belongs to one cell. -/
theorem columnMajor_eq_iff {i : Fin m} {j : Fin n} (k : Fin (n * m)) :
    j.val * m + i.val = k ↔ k.modNat = i ∧ k.divNat = j := by
  constructor
  · intro h
    exact ⟨Fin.ext ((congrArg (· % m) h).symm.trans (columnMajor_mod i j)),
      Fin.ext ((congrArg (· / m) h).symm.trans (columnMajor_div i j))⟩
  · rintro ⟨rfl, rfl⟩
    exact Nat.div_add_mod' k m

theorem cell_columnMajor (t : Table α m n) {i : Fin m} {j : Fin n}
    (h : j.val * m + i.val < n * m) :
    t.cell (Fin.modNat ⟨j.val * m + i.val, h⟩) (Fin.divNat ⟨j.val * m + i.val, h⟩) = t.cell i j := by
  obtain ⟨hi, hj⟩ := (columnMajor_eq_iff ⟨j.val * m + i.val, h⟩).mp rfl
  rw [hi, hj]

theorem toColumnMajor_eq_ofFn (t : Table α m n) :
    t.toColumnMajor = List.ofFn fun k : Fin (n * m) => t.cell k.modNat k.divNat := by
  rw [toColumnMajor]
  split
  · next hm =>
      subst hm
      rfl
  · rw [List.ofFn_mul, List.flatMap_def, ← List.ofFn_eq_map]
    simp only [cell_columnMajor, List.ofFn_eq_map]

theorem getElem?_toColumnMajor (t : Table α m n) (i : Fin m) (j : Fin n) :
    t.toColumnMajor[j.val * m + i.val]? = some (t.cell i j) := by
  have hlt : j.val * m + i.val < n * m := Nat.mul_comm m n ▸ columnMajor_lt i j
  rw [toColumnMajor_eq_ofFn, List.getElem?_ofFn, dif_pos hlt, cell_columnMajor]

theorem toColumnMajor_setCell (t : Table α m n) (i : Fin m) (j : Fin n) (a : α) :
    (t.setCell i j a).toColumnMajor = t.toColumnMajor.set (j.val * m + i.val) a := by
  simp only [toColumnMajor_eq_ofFn]
  refine List.ext_getElem (by simp) fun k hk _ => ?_
  rw [List.length_ofFn] at hk
  rw [List.getElem_set, List.getElem_ofFn, List.getElem_ofFn, cell_setCell]
  exact if_congr (columnMajor_eq_iff ⟨k, hk⟩).symm rfl rfl

end PuzzleKit.Table
