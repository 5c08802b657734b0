import PuzzleKit.Proofs.Fuel
import PuzzleKit.Proofs.Grid.Neighbor
import PuzzleKit.Proofs.Search.Distances

/-!
# Distances on an open grid

On a grid without obstacles the fewest steps along the axes are the Manhattan
distance. No walk is shorter, as a step changes the distance by one at most
(`manhattan_le_of_stepWalk`). And from every coordinate a step leads back to one that
is nearer to the start, within the rectangle that the two span and so within the grid
(`stepWalk_manhattan`).

Everything fits the width if the grid has a margin of one: then the step out of the
grid at its far sides is still a coordinate, and the greatest distance a word.
-/

namespace PuzzleKit.Grid

open Search

variable {α : Type} {g : Grid α} {start c b : Coordinate .i32} {d : Nat}
  {neighbors : Coordinate .i32 → List (Coordinate .i32)}

/-- A grid with cells, on which all distances fit the width. -/
structure DistancesFit (g : Grid α) : Prop where
  width_pos : 0 < g.width
  height_pos : 0 < g.height
  size_le : g.width + g.height ≤ 2 ^ 31

theorem DistancesFit.addressable (hg : g.DistancesFit) : g.Addressable where
  width_pos := hg.width_pos
  height_pos := hg.height_pos
  width_le := Nat.le_of_add_right_le hg.size_le
  height_le := le_trans (Nat.le_add_left _ _) hg.size_le

/-- No neighbour of a coordinate of the grid overflows the width. -/
theorem DistancesFit.exists_cardinalNeighbors (hg : g.DistancesFit) (hc : g.contains c) :
    ∃ steps, g.cardinalNeighbors c = .ok steps := by
  have hsize := hg.size_le
  have hwidth := hg.width_pos
  have hheight := hg.height_pos
  have hmin : Width.i32.min = -2 ^ 31 := rfl
  have hmax : Width.i32.max = 2 ^ 31 - 1 := rfl
  have hinside := contains_iff.mp hc
  refine exists_neighborsIn fun d _ => Coordinate.exists_step ?_ ?_
  · have hunit : -1 ≤ d.dx ∧ d.dx ≤ 1 := by cases d <;> decide
    omega
  · have hunit : -1 ≤ d.dy ∧ d.dy ≤ 1 := by cases d <;> decide
    omega

/-- The distance between two coordinates of the grid is returned. -/
theorem DistancesFit.exists_distance (hg : g.DistancesFit) (hstart : g.contains start)
    (hc : g.contains c) : ∃ d, start.distance c = .ok d ∧ d.val = start.manhattan c := by
  have hsize := hg.size_le
  have hmax : Width.i32.max = 2 ^ 31 - 1 := rfl
  have hinside := contains_iff.mp hc
  have hinside' := contains_iff.mp hstart
  refine Coordinate.exists_distance rfl ?_
  unfold Coordinate.manhattan
  omega

/-- The out-neighbours of a coordinate are its neighbours along the axes, wherever
these are returned. -/
def OpenNeighbors (g : Grid α) (neighbors : Coordinate .i32 → List (Coordinate .i32)) : Prop :=
  ∀ c steps, g.cardinalNeighbors c = .ok steps → neighbors c = steps.map Prod.snd

theorem OpenNeighbors.mem_iff (hneighbors : g.OpenNeighbors neighbors) (hg : g.DistancesFit)
    (hc : g.contains c) :
    b ∈ neighbors c ↔ ∃ d ∈ Direction.cardinal, c.step d = .ok b ∧ g.contains b := by
  obtain ⟨steps, hsteps⟩ := hg.exists_cardinalNeighbors hc
  rw [hneighbors c steps hsteps, List.mem_map]
  constructor
  · rintro ⟨⟨d, b⟩, hmem, rfl⟩
    exact ⟨d, (mem_neighborsIn hsteps).mp hmem⟩
  · rintro ⟨d, h⟩
    exact ⟨(d, b), (mem_neighborsIn hsteps).mpr h, rfl⟩

/-! ## Walks -/

theorem manhattan_le_of_stepWalk (hneighbors : g.OpenNeighbors neighbors) (hg : g.DistancesFit)
    (hstart : g.contains start) (hwalk : StepWalk neighbors start c d) :
    g.contains c ∧ start.manhattan c ≤ d := by
  induction hwalk with
  | nil => exact ⟨hstart, (Coordinate.manhattan_self start).le⟩
  | snoc _ hedge ih =>
      obtain ⟨direction, hdirection, hstep, hinside⟩ := (hneighbors.mem_iff hg ih.1).mp hedge
      have hfar := Coordinate.manhattan_step_le start hdirection hstep
      exact ⟨hinside, by omega⟩

/-- The rectangle that two coordinates of the grid span lies in the grid. -/
theorem contains_of_between (hstart : g.contains start) (hc : g.contains c)
    (hx : min start.x.val c.x.val ≤ b.x.val ∧ b.x.val ≤ max start.x.val c.x.val)
    (hy : min start.y.val c.y.val ≤ b.y.val ∧ b.y.val ≤ max start.y.val c.y.val) :
    g.contains b := by
  rw [contains_iff] at *
  omega

theorem stepWalk_manhattan (hneighbors : g.OpenNeighbors neighbors) (hg : g.DistancesFit)
    (hstart : g.contains start) (hc : g.contains c) :
    StepWalk neighbors start c (start.manhattan c) := by
  -- By the distance: the last edge of the walk comes from a nearer coordinate.
  generalize hd : start.manhattan c = d
  induction d generalizing c with
  | zero =>
      rw [Coordinate.eq_of_manhattan_eq_zero hd]
      exact .nil
  | succ d ih =>
      obtain ⟨direction, hdirection, b, hstep, hnear, hx, hy⟩ :=
        Coordinate.exists_step_nearer start (b := c) (by omega)
      have hb : g.contains b := contains_of_between hstart hc hx hy
      exact (ih hb (by omega)).snoc
        ((hneighbors.mem_iff hg hb).mpr ⟨direction, hdirection, hstep, hc⟩)

theorem isLeast_manhattan (hneighbors : g.OpenNeighbors neighbors) (hg : g.DistancesFit)
    (hstart : g.contains start) (hc : g.contains c) :
    IsLeast {d | StepWalk neighbors start c d} (start.manhattan c) :=
  ⟨stepWalk_manhattan hneighbors hg hstart hc,
    fun _ hwalk => (manhattan_le_of_stepWalk hneighbors hg hstart hwalk).2⟩

/-! ## The search -/

/-- What a search that has ended knows: the distance from the start to just the
coordinates of the grid. Nothing was expanded that has a neighbour outside the width. -/
structure KnowsDistances {M : Type} (g : Grid α) (start : Coordinate .i32)
    (e : Exploration (Stepped (Coordinate .i32)) (Coordinate .i32) M) : Prop where
  mem_seen_iff : ∃ places, g.coordinates = .ok places ∧ ∀ c, c ∈ e.frontier.seen ↔ c ∈ places
  distance : ∀ c s, e.frontier.known c = some s →
    s.id = c ∧ ∃ d, start.distance c = .ok d ∧ d.val = s.steps
  expanded : ∀ s ∈ e.visited, ∃ steps, g.cardinalNeighbors s.id = .ok steps

/-- On an open grid, a search that pushes the neighbours along the axes ends under
either traversal, and it ends with the Manhattan distance of every coordinate. -/
theorem search_open_grid {M : Type} {traversal : Traversal}
    {expand : Expansion (Stepped (Coordinate .i32)) (Coordinate .i32) M} (hg : g.DistancesFit)
    (hneighbors : g.OpenNeighbors neighbors)
    (hexpand : expand.Pushes (Rules.allSteps traversal) (Stepped.successors neighbors))
    (hstart : g.contains start) (memory : M) :
    Ends (fun fuel => explore fuel (Rules.allSteps traversal) expand memory ⟨start, 0⟩)
      (g.KnowsDistances start) where
  isSome := by
    refine exists_explore_steps rfl rfl hexpand ?_ memory
    refine (List.finite_toSet g.frame.coordinates).subset ?_
    rintro c ⟨d, hwalk⟩
    exact hg.addressable.mem_coordinates_iff.mpr
      (manhattan_le_of_stepWalk hneighbors hg hstart hwalk).1
  sound fuel e hrun := by
    obtain ⟨hfaithful, hqueue⟩ := explore_faithful_of_pushes rfl hexpand hrun
    have hdistances := hfaithful.distances hqueue
    have hreached : ∀ {c}, (∃ d, StepWalk neighbors start c d) ↔ g.contains c := fun {c} =>
      ⟨fun ⟨_, hwalk⟩ => (manhattan_le_of_stepWalk hneighbors hg hstart hwalk).1,
        fun hc => ⟨_, stepWalk_manhattan hneighbors hg hstart hc⟩⟩
    refine ⟨⟨_, hg.addressable.coordinates_eq, fun c => ?_⟩, fun c s hs => ?_, fun s hs => ?_⟩
    · rw [hdistances.reached, hreached, hg.addressable.mem_coordinates_iff]
    · obtain ⟨hid, hleast⟩ := hdistances.shortest c s hs
      have hc : g.contains c := hreached.mp ⟨_, hleast.1⟩
      obtain ⟨d, hd, hval⟩ := hg.exists_distance hstart hc
      have hsteps : s.steps = start.manhattan c :=
        hleast.unique (isLeast_manhattan hneighbors hg hstart hc)
      exact ⟨hid, d, hd, by rw [hval, hsteps]⟩
    · have hwalk := Stepped.reaches_iff_stepWalk.mp
        (Exploration.reaches_of_mem_visited hexpand hrun s hs)
      exact hg.exists_cardinalNeighbors (hreached.mp ⟨_, hwalk⟩)

/-- The neighbours along the axes; none if one of them is outside the width. -/
def axisNeighbors (g : Grid α) (c : Coordinate .i32) : List (Coordinate .i32) :=
  match g.cardinalNeighbors c with
  | .ok steps => steps.map Prod.snd
  | .error _ => []

theorem openNeighbors_axisNeighbors (g : Grid α) : g.OpenNeighbors g.axisNeighbors := by
  intro c steps hsteps
  rw [axisNeighbors, hsteps]

/-- Two columns and three rows. -/
def yard : Grid Char := .filled 2 3 '.'

theorem search_open_grid_yard :
    ∃ (fuel : Nat) (e : Exploration (Stepped (Coordinate .i32)) (Coordinate .i32) Unit),
      explore fuel (Rules.allSteps .depthFirst) (.ofNeighbors yard.axisNeighbors) ()
          ⟨⟨1, 0⟩, 0⟩ = some e ∧
        yard.KnowsDistances ⟨1, 0⟩ e ∧ ∀ s, e.frontier.known ⟨0, 1⟩ = some s → s.steps = 2 := by
  have hsize : yard.DistancesFit := ⟨by decide, by decide, by decide⟩
  have hstart : yard.contains (⟨1, 0⟩ : Coordinate .i32) := by decide
  obtain ⟨⟨bound, hsome⟩, hsound⟩ := search_open_grid hsize (openNeighbors_axisNeighbors yard)
    (Expansion.ofSuccessors_offers _).pushes hstart ()
  obtain ⟨e, he⟩ := Option.isSome_iff_exists.mp (hsome bound le_rfl)
  have hknows := hsound bound e he
  refine ⟨bound, e, he, hknows, fun s hs => ?_⟩
  obtain ⟨-, d, hd, hval⟩ := hknows.distance ⟨0, 1⟩ s hs
  have htwo : (⟨1, 0⟩ : Coordinate .i32).distance ⟨0, 1⟩ = .ok ⟨2, by decide, by decide⟩ := rfl
  cases htwo.symm.trans hd
  exact Int.ofNat_inj.mp hval.symm

end PuzzleKit.Grid
