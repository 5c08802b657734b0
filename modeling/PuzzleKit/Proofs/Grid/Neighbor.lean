import PuzzleKit.Proofs.Grid.Position

/-!
# Neighbours in a grid

The neighbours of a coordinate are the ends of its steps that lie in the grid. A list
of them is returned if every step fits the width, also those that lead out.
-/

namespace PuzzleKit.Grid

variable {α : Type} {g : Grid α} {w : Width} {p q : Coordinate w} {d : Direction}
  {directions : List Direction} {steps : List (Direction × Coordinate w)}

theorem exists_neighborsIn (h : ∀ d ∈ directions, ∃ q, p.step d = .ok q) :
    ∃ steps, g.neighborsIn p directions = .ok steps := by
  induction directions with
  | nil => exact ⟨[], rfl⟩
  | cons d directions ih =>
      obtain ⟨q, hq⟩ := h d List.mem_cons_self
      obtain ⟨rest, hrest⟩ := ih fun d hd => h d (List.mem_cons_of_mem _ hd)
      exact ⟨_, bind_eq_ok_iff.mpr ⟨q, hq, bind_eq_ok_iff.mpr ⟨rest, hrest, rfl⟩⟩⟩

theorem mem_neighborsIn (h : g.neighborsIn p directions = .ok steps) :
    (d, q) ∈ steps ↔ d ∈ directions ∧ p.step d = .ok q ∧ g.contains q := by
  induction directions generalizing steps with
  | nil =>
      cases h
      simp
  | cons first directions ih =>
      obtain ⟨next, hnext, h⟩ := bind_eq_ok_iff.mp h
      obtain ⟨rest, hrest, h⟩ := bind_eq_ok_iff.mp h
      have hsteps : (if g.contains next then (first, next) :: rest else rest) = steps :=
        Except.ok.inj h
      have hfirst : (d, q) = (first, next) ↔ d = first ∧ p.step d = .ok q := by
        rw [Prod.mk.injEq]
        refine and_congr_right fun hd => ?_
        rw [hd, hnext, Except.ok.injEq, eq_comm]
      rw [List.mem_cons, or_and_right, ← ih hrest, ← and_assoc, ← hfirst, ← hsteps]
      by_cases hinside : g.contains next
      · rw [if_pos hinside, List.mem_cons]
        refine or_congr_left (and_iff_left_of_imp ?_).symm
        rintro ⟨⟩
        exact hinside
      · rw [if_neg hinside]
        refine (or_iff_right ?_).symm
        rintro ⟨⟨⟩, hcontains⟩
        exact hinside hcontains

/-- The neighbours come in the order of the directions. -/
theorem sublist_neighborsIn (h : g.neighborsIn p directions = .ok steps) :
    (steps.map Prod.fst).Sublist directions := by
  induction directions generalizing steps with
  | nil =>
      cases h
      exact .slnil
  | cons first directions ih =>
      obtain ⟨next, -, h⟩ := bind_eq_ok_iff.mp h
      obtain ⟨rest, hrest, h⟩ := bind_eq_ok_iff.mp h
      have hsteps : (if g.contains next then (first, next) :: rest else rest) = steps :=
        Except.ok.inj h
      rw [← hsteps]
      split
      · exact (ih hrest).cons_cons first
      · exact (ih hrest).cons first

theorem neighborsIn_append {directions' : List Direction} {steps' : List (Direction × Coordinate w)}
    (h : g.neighborsIn p directions = .ok steps) (h' : g.neighborsIn p directions' = .ok steps') :
    g.neighborsIn p (directions ++ directions') = .ok (steps ++ steps') := by
  induction directions generalizing steps with
  | nil =>
      cases h
      exact h'
  | cons first directions ih =>
      obtain ⟨next, hnext, h⟩ := bind_eq_ok_iff.mp h
      obtain ⟨rest, hrest, h⟩ := bind_eq_ok_iff.mp h
      have hsteps : (if g.contains next then (first, next) :: rest else rest) = steps :=
        Except.ok.inj h
      refine bind_eq_ok_iff.mpr ⟨next, hnext, bind_eq_ok_iff.mpr ⟨_, ih hrest, ?_⟩⟩
      rw [← hsteps]
      split <;> rfl

end PuzzleKit.Grid
