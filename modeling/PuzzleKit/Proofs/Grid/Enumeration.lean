import Mathlib.Data.Set.Card
import PuzzleKit.Proofs.Fallible
import PuzzleKit.Proofs.Grid.Position

/-!
# The coordinates of a grid in reading order

The coordinates of a grid are listed by two loops, over the rows and over the columns of
each row, and so in the order of reading: `y` counts before `x`. That the list increases
says at once that nothing occurs twice and that the first of some coordinates is the
least of them. Every question about a value is then one about this list alone: which of
its coordinates hold the value (`findAll_eq`), which is the first, and how many there
are.

A grid may be without rows or without columns. Then there is nothing to list, and only a
grid with cells is a rectangle from the origin to its last coordinate.
-/

namespace PuzzleKit.Grid

variable {α : Type} {g : Grid α} {c : Coordinate .i32}

/-! ## The list of coordinates -/

/-- The coordinates of all cells, row by row. -/
def places (g : Grid α) : List (Coordinate .i32) :=
  g.positions.map fun ij => locate ij.1 ij.2

theorem mem_positions (ij : Fin g.height × Fin g.width) : ij ∈ g.positions :=
  List.mem_flatMap.mpr ⟨ij.1, List.mem_finRange _, List.mem_map_of_mem (List.mem_finRange _)⟩

theorem pairwise_positions (g : Grid α) :
    g.positions.Pairwise (Prod.Lex (· < ·) (· < ·)) := by
  rw [positions, List.pairwise_flatMap]
  constructor
  · intro i _
    rw [List.pairwise_map]
    exact (List.pairwise_lt_finRange _).imp fun h => .right i h
  · refine (List.pairwise_lt_finRange _).imp fun h a ha b hb => ?_
    obtain ⟨_, -, rfl⟩ := List.mem_map.mp ha
    obtain ⟨_, -, rfl⟩ := List.mem_map.mp hb
    exact .left _ _ h

section Sized

variable (hwidth : g.width ≤ 2 ^ 31) (hheight : g.height ≤ 2 ^ 31)
include hwidth hheight

theorem coordinates_eq_places : g.coordinates = .ok g.places :=
  mapM_eq_ok fun ij _ => coordinateAt_cell hwidth hheight ij.1 ij.2

theorem cells_eq :
    g.cells = .ok (g.positions.map fun ij => (locate ij.1 ij.2, g.table.cell ij.1 ij.2)) := by
  refine mapM_eq_ok fun ij _ => ?_
  simp only [coordinateAt_cell hwidth hheight]
  rfl

theorem pairwise_places : g.places.Pairwise fun a b => a.reading < b.reading := by
  rw [places, List.pairwise_map]
  refine (pairwise_positions g).imp fun {a b} h => ?_
  obtain ⟨hax, hay⟩ := Prod.mk.inj (key_locate_cell hwidth hheight a.1 a.2)
  obtain ⟨hbx, hby⟩ := Prod.mk.inj (key_locate_cell hwidth hheight b.1 b.2)
  rw [Prod.lex_def] at h
  -- both orders are lexicographic, one in numbers of rows and columns, one in integers
  rw [Coordinate.reading, Coordinate.reading, Prod.Lex.toLex_lt_toLex, hax, hay, hbx, hby]
  omega

theorem mem_places_iff : c ∈ g.places ↔ g.contains c := by
  rw [contains_iff_inside, inside_iff, places, List.mem_map]
  constructor
  · rintro ⟨ij, -, rfl⟩
    exact ⟨ij.1, ij.2, key_locate_cell hwidth hheight ij.1 ij.2⟩
  · rintro ⟨i, j, hkey⟩
    exact ⟨(i, j), mem_positions (i, j),
      Coordinate.ext_key ((key_locate_cell hwidth hheight i j).trans hkey.symm)⟩

/-- No access to a cell by its coordinate is refused. -/
theorem cells_eq_mapM_get : g.places.mapM (fun c => (c, ·) <$> g.get c) = g.cells := by
  rw [cells_eq hwidth hheight, places, List.mapM_map]
  refine mapM_eq_ok fun ij _ => ?_
  rw [Function.comp_apply, get, get?_locate hwidth hheight]
  rfl

/-- A grid with cells is the rectangle from the origin to its last coordinate, and the
walk over that rectangle ends there. -/
theorem places_eq_spanned (hcolumns : 0 < g.width) (hrows : 0 < g.height) :
    ∃ last : Coordinate .i32, last.key = ((g.width : Int) - 1, (g.height : Int) - 1) ∧
      g.places = (Rectangle.spanned .origin last).coordinates ∧
      ∀ n, g.places.length ≤ n → (Rectangle.spanned .origin last).take n = g.places := by
  have hg : g.Addressable := ⟨hcolumns, hrows, hwidth, hheight⟩
  obtain ⟨hx, hy⟩ := hg.frame_high
  obtain ⟨hordered, -⟩ := hg.frame_size
  have hspanned : Rectangle.spanned .origin g.frame.high = g.frame :=
    Rectangle.spanned_low_high hordered
  have hplaces : g.places = g.frame.coordinates :=
    Except.ok.inj ((coordinates_eq_places hwidth hheight).symm.trans hg.coordinates_eq)
  refine ⟨g.frame.high, by rw [Coordinate.key]; ext <;> simp only [] <;> omega, ?_, fun n hn => ?_⟩
  · rw [hspanned, hplaces]
  · rw [hplaces] at hn
    rw [hspanned, hplaces, Rectangle.take_of_length_le hordered hn]

/-! ## Questions about a value -/

variable [DecidableEq α] (a : α)

/-- The coordinates of the cells with a value. -/
def holding (g : Grid α) (a : α) : List (Coordinate .i32) :=
  g.places.filter fun c => g.get? c = some a

theorem findAll_eq : g.findAll a = .ok (g.holding a) := by
  rw [findAll, cells_eq hwidth hheight, holding, places]
  simp [List.filter_map, Function.comp_def, get?_locate hwidth hheight]

theorem findFirst?_eq : g.findFirst? a = .ok (g.holding a).head? := by
  rw [findFirst?, cells_eq hwidth hheight, holding, places]
  simp [List.find?_map, Function.comp_def, get?_locate hwidth hheight]

theorem countWhere_eq : g.countWhere (fun _ b => b = a) = .ok (g.holding a).length := by
  rw [countWhere, cells_eq hwidth hheight, holding, places, ← List.countP_eq_length_filter]
  simp [List.countP_map, Function.comp_def, get?_locate hwidth hheight]

theorem mem_holding_iff : c ∈ g.holding a ↔ g.get? c = some a := by
  rw [holding, List.mem_filter, decide_eq_true_eq, mem_places_iff hwidth hheight]
  refine and_iff_right_of_imp fun h => ?_
  rw [contains, ← Option.isSome_map, ← get?, h]
  rfl

theorem pairwise_holding : (g.holding a).Pairwise fun a b => a.reading < b.reading :=
  (pairwise_places hwidth hheight).filter _

end Sized

/-- The first item of an increasing list is the least one. -/
theorem head?_eq_some_iff {found : List (Coordinate .i32)}
    (h : found.Pairwise fun a b => a.reading < b.reading) :
    found.head? = some c ↔ c ∈ found ∧ ∀ c' ∈ found, c.reading ≤ c'.reading := by
  cases found with
  | nil => simp
  | cons first rest =>
      obtain ⟨hfirst, -⟩ := List.pairwise_cons.mp h
      rw [List.head?_cons, Option.some.injEq]
      constructor
      · rintro rfl
        refine ⟨List.mem_cons_self, fun c' hc' => ?_⟩
        rcases List.mem_cons.mp hc' with rfl | hrest
        · exact le_rfl
        · exact (hfirst c' hrest).le
      · rintro ⟨hmem, hleast⟩
        rcases List.mem_cons.mp hmem with rfl | hrest
        · rfl
        · exact absurd (hfirst c hrest) (not_lt.mpr (hleast first List.mem_cons_self))

/-! ## The list and the questions -/

/-- A list of coordinates is what a grid is found to consist of. -/
structure Enumerates (g : Grid α) (places : List (Coordinate .i32)) : Prop where
  returned : g.coordinates = .ok places
  mem_iff : ∀ c, c ∈ places ↔ g.contains c
  nodup : places.Nodup
  increasing : places.Pairwise fun a b => a.reading < b.reading
  indexed : ∃ cells, g.cells = .ok cells ∧ places.mapM (fun c => (c, ·) <$> g.get c) = .ok cells
  between : 0 < g.width → 0 < g.height →
    ∃ last : Coordinate .i32, last.key = ((g.width : Int) - 1, (g.height : Int) - 1) ∧
      places = (Rectangle.spanned .origin last).coordinates ∧
      ∀ n, places.length ≤ n → (Rectangle.spanned .origin last).take n = places

/-- The coordinates of the cells with a value are found. -/
structure Finds [DecidableEq α] (g : Grid α) (a : α) (set : Set (Coordinate .i32)) : Prop where
  all : ∃ found, g.findAll a = .ok found ∧ found.Nodup ∧ ∀ c, c ∈ found ↔ c ∈ set
  first : ∃ first?, g.findFirst? a = .ok first? ∧ (first? = none ↔ set = ∅) ∧
    ∀ c, first? = some c ↔ c ∈ set ∧ ∀ c' ∈ set, c.reading ≤ c'.reading
  count : g.countWhere (fun _ b => b = a) = .ok set.ncard

theorem enumerates_places (hwidth : g.width ≤ 2 ^ 31) (hheight : g.height ≤ 2 ^ 31) :
    g.Enumerates g.places where
  returned := coordinates_eq_places hwidth hheight
  mem_iff _ := mem_places_iff hwidth hheight
  nodup := Coordinate.nodup_of_increasing (pairwise_places hwidth hheight)
  increasing := pairwise_places hwidth hheight
  indexed := ⟨_, cells_eq hwidth hheight,
    (cells_eq_mapM_get hwidth hheight).trans (cells_eq hwidth hheight)⟩
  between := places_eq_spanned hwidth hheight

theorem finds_holding [DecidableEq α] (hwidth : g.width ≤ 2 ^ 31) (hheight : g.height ≤ 2 ^ 31)
    (a : α) : g.Finds a {c | g.get? c = some a} := by
  have hmem : ∀ c, c ∈ g.holding a ↔ g.get? c = some a := fun c =>
    mem_holding_iff hwidth hheight a
  have hincreasing := pairwise_holding hwidth hheight a
  have hnodup := Coordinate.nodup_of_increasing hincreasing
  have hset : {c | g.get? c = some a} = ((g.holding a).toFinset : Set (Coordinate .i32)) := by
    ext c
    simp [hmem]
  constructor
  · exact ⟨_, findAll_eq hwidth hheight a, hnodup, hmem⟩
  · refine ⟨_, findFirst?_eq hwidth hheight a, ?_, fun c => ?_⟩
    · rw [List.head?_eq_none_iff, hset, Finset.coe_eq_empty, List.toFinset_eq_empty_iff]
    · rw [head?_eq_some_iff hincreasing]
      simp [hmem]
  · rw [countWhere_eq hwidth hheight, hset, Set.ncard_coe_finset,
      List.toFinset_card_of_nodup hnodup]

/-- The coordinates of a grid are listed once each and in reading order, and all
questions about a value agree with that list. -/
theorem enumeration_agrees [DecidableEq α] (g : Grid α) (hwidth : g.width ≤ 2 ^ 31)
    (hheight : g.height ≤ 2 ^ 31) :
    (∃ places, g.Enumerates places) ∧ ∀ a, g.Finds a {c | g.get? c = some a} :=
  ⟨⟨_, enumerates_places hwidth hheight⟩, finds_holding hwidth hheight⟩

def beds : Grid Nat := ⟨2, 3, #v[#v[5, 0, 5], #v[0, 5, 0]]⟩

theorem enumeration_agrees_beds :
    beds.Finds 0 {c | beds.get? c = some 0} ∧
      ∃ last : Coordinate .i32, last.key = (2, 1) ∧
        beds.coordinates = .ok (Rectangle.spanned .origin last).coordinates := by
  obtain ⟨⟨places, hplaces⟩, hfinds⟩ := enumeration_agrees beds (by decide) (by decide)
  obtain ⟨last, hlast, hspanned, -⟩ := hplaces.between (by decide) (by decide)
  exact ⟨hfinds 0, last, hlast, hplaces.returned.trans (congrArg Except.ok hspanned)⟩

end PuzzleKit.Grid
