import PuzzleKit.Proofs.Fuel
import PuzzleKit.Proofs.Search.Optimum
import PuzzleKit.Proofs.Search.Steps

/-!
# The shortest walk to the target

A search by steps for a target ends on every graph in which the start reaches
finitely many nodes, and its best state is then the target with the number of
edges of a shortest walk there. Depth first, it may come to the target on a long
way round before it takes the short one. That it goes on is because a node with
fewer steps than before is queued again, and what it drops once there is a best
state has at least as many steps as that one.

The start is never offered as the best state, so a target that is the start
itself is only reached by a closed walk.
-/

namespace PuzzleKit.Search

variable {Id M : Type} {neighbors : Id → List Id} {start target : Id} {traversal : Traversal}

/-- The best state is the target with the number of edges of a shortest walk to
it that has an edge, and there is none if no such walk leads there. -/
structure Shortest (neighbors : Id → List Id) (start target : Id) (best : Option (Stepped Id)) :
    Prop where
  none_iff : best = none ↔ ¬∃ d, 0 < d ∧ StepWalk neighbors start target d
  some_iff : ∀ b, best = some b ↔
    b.id = target ∧ IsLeast {d | 0 < d ∧ StepWalk neighbors start target d} b.steps
  distance : start ≠ target → ∀ b, best = some b →
    IsLeast {d | StepWalk neighbors start target d} b.steps

theorem shortest_of_isLeast {best : Option (Stepped Id)}
    (hexists : ∀ d, 0 < d → StepWalk neighbors start target d → best.isSome)
    (hleast : ∀ b, best = some b →
      b.id = target ∧ IsLeast {d | 0 < d ∧ StepWalk neighbors start target d} b.steps) :
    Shortest neighbors start target best where
  none_iff := by
    constructor
    · rintro rfl ⟨d, hpos, hwalk⟩
      exact absurd (hexists d hpos hwalk) Bool.false_ne_true
    · intro hnot
      cases best with
      | none => rfl
      | some b => exact absurd ⟨b.steps, (hleast b rfl).2.1⟩ hnot
  some_iff b := by
    refine ⟨hleast b, fun ⟨hid, hb⟩ => ?_⟩
    obtain ⟨c, hc⟩ := Option.isSome_iff_exists.mp (hexists b.steps hb.1.1 hb.1.2)
    obtain ⟨hcid, hcleast⟩ := hleast c hc
    have hsteps : c.steps = b.steps := hcleast.unique hb
    rw [hc]
    cases b
    cases c
    cases hid
    cases hcid
    cases hsteps
    rfl
  distance hne b hb := by
    obtain ⟨-, ⟨-, hwalk⟩, hlower⟩ := hleast b hb
    exact ⟨hwalk, fun d hd => hlower ⟨hd.pos hne, hd⟩⟩

variable [DecidableEq Id] [Hashable Id]

/-- What a search by steps is left with when nothing waits. -/
theorem Frontier.Faithful.shortest {f : Frontier (Stepped Id) Id}
    (hf : f.Faithful Stepped.compare (Rules.bestSteps target traversal)
      (Stepped.successors neighbors) ⟨start, 0⟩)
    (hqueue : f.queue = []) : Shortest neighbors start target f.best := by
  have hbeaten : ∀ d, 0 < d → StepWalk neighbors start target d →
      ∃ b, f.best = some b ∧ b.steps ≤ d := by
    intro d hpos hwalk
    have hleads : Leads (Stepped.successors neighbors) ⟨start, 0⟩ ⟨target, d⟩ :=
      Stepped.leads_iff_stepWalk.mpr ⟨hpos, hwalk⟩
    obtain ⟨b, hb, hle⟩ := exists_best_of_leads (Stepped.dominates_compare neighbors)
      (Stepped.bounds_compare neighbors target) hf hqueue hleads rfl
    exact ⟨b, hb, Stepped.isLE_compare.mp hle⟩
  refine shortest_of_isLeast (fun d hpos hwalk => ?_) fun b hb => ?_
  · obtain ⟨b, hb, -⟩ := hbeaten d hpos hwalk
    rw [hb]
    rfl
  · obtain ⟨hleads, htarget⟩ := hf.traced.best b hb
    have hid : target = b.id := Option.some.inj htarget
    refine ⟨hid.symm, ?_, fun d ⟨hpos, hwalk⟩ => ?_⟩
    · rw [hid]
      exact Stepped.leads_iff_stepWalk.mp hleads
    · obtain ⟨c, hc, hle⟩ := hbeaten d hpos hwalk
      cases hb.symm.trans hc
      exact hle

/-- On a graph in which the start reaches finitely many nodes, a search by steps
ends under either traversal and in whatever order the out-neighbours of a node
are pushed, and it ends with a shortest walk to the target. -/
theorem bestSteps_ends_shortest {expand : Expansion (Stepped Id) Id M}
    (hexpand : expand.Pushes (Rules.bestSteps target traversal) (Stepped.successors neighbors))
    (hfinite : {b | ∃ d, StepWalk neighbors start b d}.Finite) (memory : M) :
    Ends (fun fuel => explore fuel (Rules.bestSteps target traversal) expand memory ⟨start, 0⟩)
      fun e => Shortest neighbors start target e.frontier.best where
  isSome := exists_explore_steps rfl rfl hexpand hfinite memory
  sound fuel e hrun := by
    obtain ⟨hf, hqueue⟩ := explore_faithful_of_pushes rfl hexpand hrun
    exact hf.shortest hqueue

/-- A graph with a long and a short way from 0 to 5 that share their last edges.
The last out-neighbour of 0 is on the long one. -/
def roundabout : Nat → List Nat
  | 0 => [1, 2]
  | 1 => [4]
  | 2 => [3]
  | 3 => [4]
  | 4 => [0, 5]
  | _ => []

theorem bestSteps_ends_shortest_roundabout :
    {b | ∃ d, StepWalk roundabout 0 b d}.Finite ∧
      ∃ e : Exploration (Stepped Nat) Nat Unit,
        explore 9 (Rules.bestSteps 5 .depthFirst) (.ofNeighbors roundabout) () ⟨0, 0⟩ = some e ∧
          e.visited = [⟨0, 0⟩, ⟨2, 1⟩, ⟨3, 2⟩, ⟨4, 3⟩, ⟨1, 1⟩, ⟨4, 2⟩] ∧
            e.frontier.best = some ⟨5, 3⟩ ∧ IsLeast {d | StepWalk roundabout 0 5 d} 3 := by
  have hedges : ∀ n, ∀ next ∈ roundabout n, next ≤ 5 := by
    intro n
    match n with
    | 0 | 1 | 2 | 3 | 4 | _ + 5 => simp [roundabout]
  have hfinite : {b | ∃ d, StepWalk roundabout 0 b d}.Finite := by
    refine (Set.finite_le_nat 5).subset ?_
    rintro b ⟨d, hwalk⟩
    cases hwalk with
    | nil => exact Nat.zero_le 5
    | snoc _ hedge => exact hedges _ _ hedge
  have hresult : ((explore 9 (Rules.bestSteps 5 .depthFirst) (.ofNeighbors roundabout) ()
      (⟨0, 0⟩ : Stepped Nat)).map fun e => (e.visited, e.frontier.best)) =
      some ([⟨0, 0⟩, ⟨2, 1⟩, ⟨3, 2⟩, ⟨4, 3⟩, ⟨1, 1⟩, ⟨4, 2⟩], some ⟨5, 3⟩) := by cbv
  obtain ⟨e, hrun, heq⟩ := Option.map_eq_some_iff.mp hresult
  obtain ⟨hvisited, hbest⟩ := Prod.mk.inj heq
  have hends : Ends
      (fun fuel => explore fuel (Rules.bestSteps 5 .depthFirst) (.ofNeighbors roundabout) () ⟨0, 0⟩)
      fun e => Shortest roundabout 0 5 e.frontier.best :=
    bestSteps_ends_shortest (Expansion.ofSuccessors_offers _).pushes hfinite ()
  have hshortest := (hends.sound 9 e hrun).distance (by decide) _ hbest
  exact ⟨hfinite, e, hrun, hvisited, hbest, hshortest⟩

end PuzzleKit.Search
