import Mathlib.Data.List.Nodup
import PuzzleKit.Proofs.Geometry.Adjacency
import PuzzleKit.Proofs.Grid.Neighbor

/-!
# Adjacent coordinates of a grid

Of two coordinates in a grid, that they are adjacent can be asked for in three ways:
through the neighbours of either one, and through the direction between the two.

All of this is asked step by step, also of steps that lead out of the grid, so it is
answered where every step fits the width.
-/

namespace PuzzleKit.Grid

variable {α : Type} {g : Grid α} {w : Width} {c n : Coordinate w}
  {steps : List (Direction × Coordinate w)}

/-- The list of all neighbours of a coordinate is returned, and it is exact. -/
structure ListsNeighbors (g : Grid α) (c : Coordinate w)
    (steps : List (Direction × Coordinate w)) : Prop where
  returned : g.allNeighbors c = .ok steps
  in_order : (steps.map Prod.fst).Sublist Direction.all
  nodup : steps.Nodup
  mem_iff : ∀ d n, (d, n) ∈ steps ↔
    n.key = (c.x.val + d.dx, c.y.val + d.dy) ∧ g.Inside n.key
  cardinals_first : ∃ cardinals ordinals, g.cardinalNeighbors c = .ok cardinals ∧
    g.ordinalNeighbors c = .ok ordinals ∧ steps = cardinals ++ ordinals

theorem exists_listsNeighbors (g : Grid α) (hc : c.Inner) : ∃ steps, g.ListsNeighbors c steps := by
  obtain ⟨cardinals, hcardinals⟩ : ∃ steps, g.cardinalNeighbors c = .ok steps :=
    exists_neighborsIn fun d _ => hc.exists_step d
  obtain ⟨ordinals, hordinals⟩ : ∃ steps, g.ordinalNeighbors c = .ok steps :=
    exists_neighborsIn fun d _ => hc.exists_step d
  have hall : g.allNeighbors c = .ok (cardinals ++ ordinals) :=
    neighborsIn_append hcardinals hordinals
  have hsublist := sublist_neighborsIn hall
  refine ⟨_, hall, hsublist, ?_, fun d n => ?_, _, _, hcardinals, hordinals, rfl⟩
  · exact List.Nodup.of_map Prod.fst (Direction.nodup_all.sublist hsublist)
  · rw [mem_neighborsIn hall, Coordinate.step_eq_ok_iff_key, contains_iff_inside]
    exact and_iff_right d.mem_all

theorem ListsNeighbors.mem_iff_step (h : g.ListsNeighbors c steps) (hn : g.Inside n.key)
    (d : Direction) : (d, n) ∈ steps ↔ c.step d = .ok n := by
  rw [h.mem_iff, Coordinate.step_eq_ok_iff_key]
  exact and_iff_left hn

/-- The neighbours of a coordinate are listed exactly, and of two coordinates in the
grid, the second is the neighbour of the first in just the direction between them, and
the first that of the second in the opposite one. -/
theorem allNeighbors_symmetric (g : Grid α) (hc : c.Inner) :
    ∃ steps, g.ListsNeighbors c steps ∧
      ∀ n : Coordinate w, n.Inner → g.Inside c.key → g.Inside n.key →
        ∃ back answer, g.ListsNeighbors n back ∧ c.relative n = .ok answer ∧
          ∀ d, ((d, n) ∈ steps ↔ answer = some d) ∧
            (answer = some d ↔ (d.opposite, c) ∈ back) := by
  obtain ⟨steps, hsteps⟩ := exists_listsNeighbors g hc
  refine ⟨steps, hsteps, fun n hn hcinside hninside => ?_⟩
  obtain ⟨back, hback⟩ := exists_listsNeighbors g hn
  obtain ⟨answer, hanswer, hiff⟩ := hc.exists_relativeAmong n Direction.all
  have hfound : ∀ d, answer = some d ↔ c.step d = .ok n := fun d =>
    (hiff d).trans (and_iff_right d.mem_all)
  refine ⟨back, answer, hback, hanswer, fun d => ⟨?_, ?_⟩⟩
  · rw [hsteps.mem_iff_step hninside, hfound]
  · rw [hback.mem_iff_step hcinside, hfound, Coordinate.step_opposite]

def pasture : Grid Nat := .filled 3 2 0

theorem allNeighbors_symmetric_pasture :
    ∃ steps back : List (Direction × Coordinate .i8),
      pasture.ListsNeighbors ⟨1, 0⟩ steps ∧ pasture.ListsNeighbors ⟨0, 1⟩ back ∧
        (.southWest, ⟨0, 1⟩) ∈ steps ∧ (.northEast, ⟨1, 0⟩) ∈ back := by
  have hc : (⟨1, 0⟩ : Coordinate .i8).Inner := ⟨by decide, by decide, by decide, by decide⟩
  have hn : (⟨0, 1⟩ : Coordinate .i8).Inner := ⟨by decide, by decide, by decide, by decide⟩
  obtain ⟨steps, hsteps, hsymmetric⟩ := allNeighbors_symmetric pasture hc
  obtain ⟨back, answer, hback, hanswer, hiff⟩ := hsymmetric _ hn (by decide) (by decide)
  obtain ⟨hstep, hreturn⟩ := hiff .southWest
  have hsouthWest : answer = some .southWest := (Except.ok.inj hanswer).symm
  exact ⟨steps, back, hsteps, hback, hstep.mpr hsouthWest, hreturn.mp hsouthWest⟩

end PuzzleKit.Grid
