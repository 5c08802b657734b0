import PuzzleKit.Proofs.Grid.Position
import PuzzleKit.Proofs.Table

/-!
# Writing to a grid

A grid is a finite map. Its keys are pairs of integers, `x` and `y`, so that
coordinates of different widths that stand for the same place have the same key, and a
coordinate too great for the grid has a key like any other. What is known of a write is
one equation on this map (`lookup_perform`): the key that is written to gets the value if
it had one before, and all other keys keep theirs. So the keys that have a value never
change, and after a history of writes each of them has the value written to it last.

The cells are stored column by column. A write is one write to that list, at the place
of its cell.
-/

namespace PuzzleKit.Grid

variable {α : Type} {g : Grid α} {w : Width} {c : Coordinate w} {k : Int × Int} {a : α}
  {fault : GridFault}

/-- The grid as a map. -/
def lookup (g : Grid α) (k : Int × Int) : Option α :=
  if h : g.Inside k then
    some (g.table.cell ⟨k.2.toNat, by have := h.2; omega⟩ ⟨k.1.toNat, by have := h.1; omega⟩)
  else none

theorem lookup_cell (g : Grid α) (i : Fin g.height) (j : Fin g.width) :
    g.lookup (↑j.val, ↑i.val) = some (g.table.cell i j) :=
  dif_pos (inside_iff.mpr ⟨i, j, rfl⟩)

theorem lookup_eq_none_iff : g.lookup k = none ↔ ¬ g.Inside k := by
  rw [lookup]
  split
  · next h => simp [h]
  · next h => simp [h]

theorem index?_eq_some_iff_key {i : Fin g.height} {j : Fin g.width} :
    g.index? c = some (i, j) ↔ c.key = (↑j.val, ↑i.val) := by
  rw [index?_eq_some_iff, Coordinate.key, Prod.mk.injEq, and_comm]

theorem exists_index? (h : g.Inside c.key) :
    ∃ i j, g.index? c = some (i, j) ∧ c.key = (↑j.val, ↑i.val) := by
  obtain ⟨i, j, hkey⟩ := inside_iff.mp h
  exact ⟨i, j, index?_eq_some_iff_key.mpr hkey, hkey⟩

theorem index?_eq_none (h : ¬ g.Inside c.key) : g.index? c = none :=
  dif_neg fun hinside => h hinside.symm

theorem get?_eq_lookup : g.get? c = g.lookup c.key := by
  rw [get?]
  by_cases h : g.Inside c.key
  · obtain ⟨i, j, hindex, hkey⟩ := exists_index? h
    rw [hindex, hkey, lookup_cell]
    rfl
  · rw [index?_eq_none h, lookup_eq_none_iff.mpr h]
    rfl

/-! ## One access -/

theorem get_eq_ok_iff : g.get c = .ok a ↔ g.get? c = some a := by
  rw [get]
  cases g.get? c <;> simp

theorem get_eq_error_iff :
    g.get c = .error fault ↔ ¬ g.Inside c.key ∧ fault = g.outsideFault c := by
  rw [← lookup_eq_none_iff, ← get?_eq_lookup, get]
  cases g.get? c with
  | none => simp [eq_comm]
  | some a => simp

theorem assign_of_inside (h : g.Inside c.key) (a : α) : g.assign c a = .ok (g.set c a).2 := by
  obtain ⟨i, j, hindex, -⟩ := exists_index? h
  rw [assign, set, hindex]

theorem assign_of_not_inside (h : ¬ g.Inside c.key) (a : α) :
    g.assign c a = .error (g.outsideFault c) := by
  rw [assign, index?_eq_none h]

theorem set_of_not_inside (h : ¬ g.Inside c.key) (a : α) : g.set c a = (none, g) := by
  rw [set, index?_eq_none h]

theorem set_fst (g : Grid α) (c : Coordinate w) (a : α) : (g.set c a).1 = g.get? c := by
  rw [set, get?]
  cases g.index? c <;> rfl

theorem lookup_setCell (g : Grid α) (i : Fin g.height) (j : Fin g.width) :
    (g.setCell i j a).lookup k = if k = (↑j.val, ↑i.val) then some a else g.lookup k := by
  by_cases h : g.Inside k
  · obtain ⟨i', j', rfl⟩ := inside_iff.mp h
    have hcell : ((↑j'.val, ↑i'.val) : Int × Int) = (↑j.val, ↑i.val) ↔ i' = i ∧ j' = j := by
      rw [Prod.mk.injEq, Int.ofNat_inj, Int.ofNat_inj, ← Fin.ext_iff, ← Fin.ext_iff, and_comm]
    have hset : (g.setCell i j a).lookup (↑j'.val, ↑i'.val) =
        some ((g.table.setCell i j a).cell i' j') := lookup_cell (g.setCell i j a) i' j'
    rw [hset, Table.cell_setCell, lookup_cell, apply_ite some]
    exact (if_congr hcell rfl rfl).symm
  · have hne : k ≠ (↑j.val, ↑i.val) := fun hkey => h (inside_iff.mpr ⟨i, j, hkey⟩)
    rw [if_neg hne, lookup_eq_none_iff.mpr h]
    exact lookup_eq_none_iff.mpr h

/-- Only the key that is written to changes, and only if it has a value. -/
theorem lookup_set (g : Grid α) (c : Coordinate w) (a : α) (k : Int × Int) :
    (g.set c a).2.lookup k =
      if c.key = k then (g.lookup k).map fun _ => a else g.lookup k := by
  by_cases h : g.Inside c.key
  · obtain ⟨i, j, hindex, hkey⟩ := exists_index? h
    rw [set, hindex, hkey]
    simp only [lookup_setCell, eq_comm (a := k)]
    refine if_ctx_congr Iff.rfl (fun hcell => ?_) fun _ => rfl
    rw [← hcell, lookup_cell, Option.map_some]
  · rw [set_of_not_inside h]
    split
    · next hkey =>
        rw [← hkey, lookup_eq_none_iff.mpr h]
        rfl
    · rfl

/-! ## Histories of writes -/

/-- A value written at a coordinate, by replacing the cell or by assigning to it. -/
inductive Write (α : Type)
  | set {w : Width} (c : Coordinate w) (a : α)
  | assign {w : Width} (c : Coordinate w) (a : α)

def Write.key : Write α → Int × Int
  | .set c _ => c.key
  | .assign c _ => c.key

def Write.value : Write α → α
  | .set _ a => a
  | .assign _ a => a

/-- The grid after a write. A refused assignment leaves it as it was. -/
def perform (g : Grid α) : Write α → Grid α
  | .set c a => (g.set c a).2
  | .assign c a =>
    match g.assign c a with
    | .ok g' => g'
    | .error _ => g

def after (g : Grid α) (writes : List (Write α)) : Grid α := writes.foldl perform g

theorem perform_assign (g : Grid α) (c : Coordinate w) (a : α) :
    g.perform (.assign c a) = (g.set c a).2 := by
  by_cases h : g.Inside c.key
  · rw [perform, assign_of_inside h]
  · rw [perform, assign_of_not_inside h, set_of_not_inside h]

theorem lookup_perform (g : Grid α) (e : Write α) (k : Int × Int) :
    (g.perform e).lookup k =
      if e.key = k then (g.lookup k).map fun _ => e.value else g.lookup k := by
  cases e with
  | set c a => exact lookup_set g c a k
  | assign c a =>
      rw [perform_assign]
      exact lookup_set g c a k

theorem size_set (g : Grid α) (c : Coordinate w) (a : α) :
    (g.set c a).2.width = g.width ∧ (g.set c a).2.height = g.height := by
  rw [set]
  split <;> exact ⟨rfl, rfl⟩

theorem size_after (g : Grid α) (writes : List (Write α)) :
    (g.after writes).width = g.width ∧ (g.after writes).height = g.height := by
  induction writes generalizing g with
  | nil => exact ⟨rfl, rfl⟩
  | cons e writes ih =>
      have hsize : (g.perform e).width = g.width ∧ (g.perform e).height = g.height := by
        cases e with
        | set c a => exact size_set g c a
        | assign c a =>
            rw [perform_assign]
            exact size_set g c a
      exact ⟨(ih _).1.trans hsize.1, (ih _).2.trans hsize.2⟩

theorem inside_after (writes : List (Write α)) : (g.after writes).Inside k ↔ g.Inside k := by
  obtain ⟨hwidth, hheight⟩ := size_after g writes
  rw [Inside, Inside, hwidth, hheight]

/-- A key that is not written to keeps its value. -/
theorem lookup_after_of_ne {writes : List (Write α)} (h : ∀ e ∈ writes, e.key ≠ k) :
    (g.after writes).lookup k = g.lookup k := by
  induction writes generalizing g with
  | nil => rfl
  | cons e writes ih =>
      have hfirst := lookup_perform g e k
      rw [if_neg (h e List.mem_cons_self)] at hfirst
      exact (ih fun e' he' => h e' (List.mem_cons_of_mem _ he')).trans hfirst

/-- The latest write to a key counts. -/
theorem lookup_after_append_cons (before : List (Write α)) (e : Write α) {later : List (Write α)}
    (hkey : e.key = k) (hlater : ∀ e' ∈ later, e'.key ≠ k) (hinside : g.Inside k) :
    (g.after (before ++ e :: later)).lookup k = some e.value := by
  -- the key has a value to be replaced, as no write changes which keys have one
  have hbefore : ((g.after before).lookup k).isSome := by
    rw [← Option.ne_none_iff_isSome, Ne, lookup_eq_none_iff, inside_after, not_not]
    exact hinside
  obtain ⟨old, hold⟩ := Option.isSome_iff_exists.mp hbefore
  have happend : g.after (before ++ e :: later) = ((g.after before).perform e).after later :=
    List.foldl_append
  rw [happend, lookup_after_of_ne hlater, lookup_perform, if_pos hkey, hold, Option.map_some]

/-! ## The storage -/

theorem get?_eq_toColumnMajor (h : g.Inside c.key) :
    g.get? c = g.table.toColumnMajor[c.x.val.toNat * g.height + c.y.val.toNat]? := by
  obtain ⟨i, j, hindex, hkey⟩ := exists_index? h
  obtain ⟨hx, hy⟩ := Prod.mk.inj hkey
  rw [get?, hindex, hx, hy, Int.toNat_natCast, Int.toNat_natCast, Table.getElem?_toColumnMajor]
  rfl

theorem toColumnMajor_set (h : g.Inside c.key) (a : α) :
    (g.set c a).2.table.toColumnMajor =
      g.table.toColumnMajor.set (c.x.val.toNat * g.height + c.y.val.toNat) a := by
  obtain ⟨i, j, hindex, hkey⟩ := exists_index? h
  obtain ⟨hx, hy⟩ := Prod.mk.inj hkey
  rw [set, hindex, hx, hy, Int.toNat_natCast, Int.toNat_natCast, ← Table.toColumnMajor_setCell]
  rfl

/-! ## The finite map -/

/-- What some writes have made of a grid, seen through coordinates of any width. -/
structure Written (g : Grid α) (writes : List (Write α)) (g' : Grid α) : Prop where
  width_eq : g'.width = g.width
  height_eq : g'.height = g.height
  absent_iff : ∀ {w : Width} (c : Coordinate w), g'.get? c = none ↔ ¬ g.Inside c.key
  initial : ∀ {w : Width} (c : Coordinate w), (∀ e ∈ writes, e.key ≠ c.key) →
    g'.get? c = g.get? c
  latest : ∀ {w : Width} (c : Coordinate w) (before : List (Write α)) (e : Write α)
    (later : List (Write α)), writes = before ++ e :: later → e.key = c.key →
    (∀ e' ∈ later, e'.key ≠ c.key) → g.Inside c.key → g'.get? c = some e.value

/-- What the accesses of a grid give, what they refuse, and what they change. -/
structure Accesses (g : Grid α) : Prop where
  set_previous : ∀ {w : Width} (c : Coordinate w) (a : α), (g.set c a).1 = g.get? c
  set_frame : ∀ {w v : Width} (c : Coordinate w) (a : α) (c' : Coordinate v), c'.key ≠ c.key →
    (g.set c a).2.get? c' = g.get? c'
  set_outside : ∀ {w : Width} (c : Coordinate w) (a : α), ¬ g.Inside c.key → g.set c a = (none, g)
  get_value : ∀ {w : Width} (c : Coordinate w) (a : α), g.get c = .ok a ↔ g.get? c = some a
  get_refused : ∀ {w : Width} (c : Coordinate w) (fault : GridFault),
    g.get c = .error fault ↔ ¬ g.Inside c.key ∧ fault = g.outsideFault c
  assign_value : ∀ {w : Width} (c : Coordinate w) (a : α) (g' : Grid α),
    g.assign c a = .ok g' ↔ g.Inside c.key ∧ g' = (g.set c a).2
  assign_refused : ∀ {w : Width} (c : Coordinate w) (a : α) (fault : GridFault),
    g.assign c a = .error fault ↔ ¬ g.Inside c.key ∧ fault = g.outsideFault c
  read_place : ∀ {w : Width} (c : Coordinate w), g.Inside c.key →
    g.get? c = g.table.toColumnMajor[c.x.val.toNat * g.height + c.y.val.toNat]?
  write_place : ∀ {w : Width} (c : Coordinate w) (a : α), g.Inside c.key →
    (g.set c a).2.table.toColumnMajor =
      g.table.toColumnMajor.set (c.x.val.toNat * g.height + c.y.val.toNat) a

theorem written_after (g : Grid α) (writes : List (Write α)) :
    Written g writes (g.after writes) where
  width_eq := (size_after g writes).1
  height_eq := (size_after g writes).2
  absent_iff c := by rw [get?_eq_lookup, lookup_eq_none_iff, inside_after]
  initial c hne := by rw [get?_eq_lookup, get?_eq_lookup, lookup_after_of_ne hne]
  latest c before e later hwrites hkey hlater hinside := by
    rw [get?_eq_lookup, hwrites, lookup_after_append_cons before e hkey hlater hinside]

theorem accesses (g : Grid α) : Accesses g where
  set_previous c a := set_fst g c a
  set_frame c a c' hne := by rw [get?_eq_lookup, get?_eq_lookup, lookup_set, if_neg hne.symm]
  set_outside c a h := set_of_not_inside h a
  get_value c a := get_eq_ok_iff
  get_refused c fault := get_eq_error_iff
  assign_value c a g' := by
    by_cases h : g.Inside c.key
    · simp [assign_of_inside h, h, eq_comm]
    · simp [assign_of_not_inside h, h]
  assign_refused c a fault := by
    by_cases h : g.Inside c.key
    · simp [assign_of_inside h, h]
    · simp [assign_of_not_inside h, h, eq_comm]
  read_place c h := get?_eq_toColumnMajor h
  write_place c a h := toColumnMajor_set h a

/-- A grid is a finite map from the coordinates inside it to cells, whatever has been
written to it and through coordinates of whatever widths. -/
theorem after_finiteMap (g : Grid α) (writes : List (Write α)) :
    Written g writes (g.after writes) ∧ Accesses (g.after writes) :=
  ⟨written_after g writes, accesses _⟩

end PuzzleKit.Grid
