import PuzzleKit.Proofs.Search.Flood
import PuzzleKit.Proofs.Search.Level

/-!
# Three ways to count steps

The fewest steps to every node that can be reached come from a search for the
fewest steps under either traversal, which corrects a count whenever it finds a
shorter walk, and also from a flood, which never corrects anything. The flood is
right for the sake of the queue alone. While a state with `d` steps is expanded,
those that wait have `d` or `d + 1` steps, in this order, and no state is kept
with more (`Layered`). A state that is offered has `d + 1` steps, so it is never
better than the one kept for its node, and whether a better state takes the place
of a worse one or not makes no difference: the flood is the search for the fewest
steps, offer by offer (`explore_flood_steps`).
-/

namespace PuzzleKit.Search

variable {Id M : Type} {neighbors : Id → List Id} {start : Id}

/-- The three ways to count steps. -/
def Rules.stepCounts : List (Rules (Stepped Id) Id) :=
  [allSteps .breadthFirst, allSteps .depthFirst, flood Stepped.id .breadthFirst]

variable [DecidableEq Id] [Hashable Id]

/-- A frontier keeps a state for just the nodes that a walk leads to, with the
number of edges of a shortest one. -/
structure Distances (neighbors : Id → List Id) (start : Id) (f : Frontier (Stepped Id) Id) :
    Prop where
  reached : ∀ n, n ∈ f.seen ↔ ∃ d, StepWalk neighbors start n d
  shortest : ∀ n s, f.known n = some s →
    s.id = n ∧ IsLeast {d | StepWalk neighbors start n d} s.steps

theorem Distances.known_of_known {f f' : Frontier (Stepped Id) Id}
    (hf : Distances neighbors start f) (hf' : Distances neighbors start f') {n : Id}
    {s : Stepped Id} (h : f.known n = some s) : f'.known n = some s := by
  obtain ⟨hid, hleast⟩ := hf.shortest n s h
  have hmem : n ∈ f'.seen := (hf'.reached n).mpr ⟨s.steps, hleast.1⟩
  obtain ⟨t, ht⟩ := Frontier.mem_seen_iff.mp hmem
  obtain ⟨htid, htleast⟩ := hf'.shortest n t ht
  have hsteps : s.steps = t.steps := hleast.unique htleast
  rw [ht]
  cases s
  cases t
  simp_all

/-- What a search for the fewest steps is left with when nothing waits. -/
theorem Frontier.Faithful.distances {f : Frontier (Stepped Id) Id} {traversal : Traversal}
    (hf : f.Faithful Stepped.compare (Rules.allSteps traversal) (Stepped.successors neighbors)
      ⟨start, 0⟩)
    (hqueue : f.queue = []) : Distances neighbors start f := by
  have hkeeps : ∀ {n d}, StepWalk neighbors start n d →
      ∃ s, f.known n = some s ∧ s.steps ≤ d := by
    intro n d hwalk
    have hreaches : Reaches (Stepped.successors neighbors) ⟨start, 0⟩ ⟨n, d⟩ :=
      Stepped.reaches_iff_stepWalk.mpr hwalk
    obtain ⟨s, hs, hle⟩ := hf.keeps_of_reaches rfl (Stepped.dominates_compare neighbors) hqueue
      hreaches
    exact ⟨s, hs, Stepped.isLE_compare.mp hle⟩
  have hwalks : ∀ {n s}, f.known n = some s → s.id = n ∧ StepWalk neighbors start n s.steps :=
    hf.traced.stepWalk_of_known rfl
  refine ⟨fun n => ?_, fun n s hs => ?_⟩
  · rw [Frontier.mem_seen_iff]
    constructor
    · rintro ⟨s, hs⟩
      exact ⟨s.steps, (hwalks hs).2⟩
    · rintro ⟨d, hwalk⟩
      obtain ⟨s, hs, -⟩ := hkeeps hwalk
      exact ⟨s, hs⟩
  · obtain ⟨hid, hwalk⟩ := hwalks hs
    refine ⟨hid, hwalk, fun d hd => ?_⟩
    obtain ⟨t, ht, hle⟩ := hkeeps hd
    rw [hs] at ht
    cases ht
    exact hle

/-! ## Levels -/

/-- The frontier of a flood while states with `d` steps are expanded. -/
structure Layered (d : Nat) (f : Frontier (Stepped Id) Id) : Prop where
  sorted : f.queue.Pairwise fun s t => s.steps ≤ t.steps
  ahead : ∀ s ∈ f.queue, d ≤ s.steps
  within : ∀ n s, f.known n = some s → s.steps ≤ d + 1
  waiting : ∀ s ∈ f.queue, f.known s.id = some s
  best : f.best = none

variable {d : Nat} {f : Frontier (Stepped Id) Id} {s t : Stepped Id}

theorem Layered.onLevel (h : Layered d f) : f.OnLevel d where
  sorted := h.sorted
  span s hs := ⟨h.ahead s hs, h.within s.id s (h.waiting s hs)⟩
  within := h.within
  best b hb := by
    rw [h.best] at hb
    cases hb

theorem Layered.of_onLevel (h : f.OnLevel d) (hwaiting : ∀ s ∈ f.queue, f.known s.id = some s)
    (hbest : f.best = none) : Layered d f :=
  ⟨h.sorted, fun s hs => (h.span s hs).1, h.within, hwaiting, hbest⟩

theorem Layered.init :
    Layered 0 (Frontier.start (Rules.flood Stepped.id .breadthFirst) ⟨start, 0⟩) := by
  refine .of_onLevel .init (fun s hs => ?_) rfl
  rw [List.mem_singleton.mp hs, Frontier.known_start]
  exact if_pos rfl

theorem Layered.tail (h : Layered d f) {queue : List (Stepped Id)} (hqueue : f.queue = s :: queue) :
    Layered s.steps { f with queue } := by
  have hbest : ∀ b, f.best = some b → s.steps < b.steps := by
    intro b hb
    rw [h.best] at hb
    cases hb
  exact .of_onLevel (h.onLevel.take hqueue hbest)
    (fun t ht => h.waiting t (hqueue ▸ List.mem_cons_of_mem s ht)) h.best

/-- A state that waits is the one kept for its node, so it is never stale. -/
theorem Layered.isStale_eq_false (h : Layered d f) {queue : List (Stepped Id)}
    (hqueue : f.queue = s :: queue) :
    { f with queue }.isStale (Rules.allSteps .breadthFirst) s = false := by
  have hknown : f.known s.id = some s := h.waiting s (hqueue ▸ List.mem_cons_self)
  have hbest : { f with queue }.best = none := h.best
  have hadmission : (Rules.allSteps .breadthFirst : Rules (Stepped Id) Id).admission =
    .improving Stepped.compare := rfl
  rw [← Bool.not_eq_true, Frontier.isStale_iff hadmission]
  rintro (⟨b, hb, -⟩ | ⟨k, hk, hlt⟩)
  · rw [hbest] at hb
    cases hb
  · cases hknown.symm.trans hk
    exact compare_self_ne_lt s hlt

theorem Layered.keep (h : Layered d f) (ht : t.steps = d + 1) (hnone : f.known t.id = none) :
    Layered d (f.keep (Rules.flood Stepped.id .breadthFirst) t) := by
  refine .of_onLevel (h.onLevel.keep rfl ht) (fun s hs => ?_) h.best
  rw [Frontier.known_keep]
  rcases Frontier.mem_queue_keep.mp hs with rfl | hs
  · exact if_pos rfl
  · have hne : t.id ≠ s.id := by
      intro hid
      rw [hid, h.waiting s hs] at hnone
      cases hnone
    rw [← h.waiting s hs]
    exact if_neg hne

/-- A state one step further is admitted if there is none for its node, whether
a better one would take its place or not. -/
theorem Layered.offer (h : Layered d f) (ht : t.steps = d + 1) :
    f.offer (Rules.flood Stepped.id .breadthFirst) t = f.offer (Rules.allSteps .breadthFirst) t ∧
      Layered d (f.offer (Rules.flood Stepped.id .breadthFirst) t).2 := by
  rcases Frontier.offer_flood_cases f t with ⟨⟨k, hk⟩, heq⟩ | ⟨hnone, heq⟩ <;> rw [heq]
  · have hworse : ¬Stepped.compare t k = .lt := by
      have := h.within _ k hk
      rw [Stepped.compare_eq_lt]
      omega
    refine ⟨?_, h⟩
    simp [Frontier.offer, Rules.allSteps, Rules.all, hk, improves, hworse]
  · refine ⟨?_, h.keep ht hnone⟩
    simp [Frontier.offer, Rules.allSteps, Rules.all, Rules.flood, hnone, improves, Frontier.keep]

/-- Breadth first, a flood is the search for the fewest steps. -/
theorem explore_flood_steps {expand : Expansion (Stepped Id) Id M}
    (hexpand : expand.Advances (Rules.flood Stepped.id .breadthFirst)) (fuel : Nat) (memory : M) :
    explore fuel (Rules.flood Stepped.id .breadthFirst) expand memory ⟨start, 0⟩ =
      explore fuel (Rules.allSteps .breadthFirst) expand memory ⟨start, 0⟩ := by
  refine Exploration.run_congr (P := fun f => ∃ d, Layered d f) ?_ fuel ⟨0, .init⟩
  intro f s queue memory ⟨d, hf⟩ hqueue
  have htail := hf.tail hqueue
  have hidentity : (Rules.flood Stepped.id .breadthFirst).identity =
      (Rules.allSteps .breadthFirst : Rules (Stepped Id) Id).identity := rfl
  obtain ⟨hdialogue, hkeeps⟩ := Dialogue.run_congr (P := Layered s.steps)
    (Q := fun t => t.steps = s.steps + 1) hidentity (fun f t hf ht => hf.offer ht)
    (expand s memory { f with queue }) { f with queue } htail (hexpand s memory _)
  refine ⟨⟨?_, s.steps, htail⟩, hdialogue, s.steps, hkeeps⟩
  rw [hf.isStale_eq_false hqueue]
  rfl

/-! ## All three -/

theorem exists_explore_eq_allSteps {expand : Expansion (Stepped Id) Id M}
    (hexpand : ∀ rules, expand.Pushes rules (Stepped.successors neighbors))
    {rules : Rules (Stepped Id) Id} (hrules : rules ∈ Rules.stepCounts) (start : Id) :
    ∃ traversal, ∀ fuel memory, explore fuel rules expand memory ⟨start, 0⟩ =
      explore fuel (Rules.allSteps traversal) expand memory ⟨start, 0⟩ := by
  simp only [Rules.stepCounts, List.mem_cons, List.not_mem_nil, or_false] at hrules
  rcases hrules with rfl | rfl | rfl
  · exact ⟨.breadthFirst, fun _ _ => rfl⟩
  · exact ⟨.depthFirst, fun _ _ => rfl⟩
  · exact ⟨.breadthFirst, explore_flood_steps (hexpand _).advances⟩

/-- On a graph in which the start reaches finitely many nodes, and in whatever
order the out-neighbours of a node are pushed, all three ways to count steps end,
and they end with the same: the lengths of the shortest walks to just the nodes
that can be reached. -/
theorem step_counts_agree {expand : Expansion (Stepped Id) Id M}
    (hexpand : ∀ rules, expand.Pushes rules (Stepped.successors neighbors))
    (hfinite : {n | ∃ d, StepWalk neighbors start n d}.Finite) (memory : M) :
    (∀ rules ∈ Rules.stepCounts,
      Ends (fun fuel => explore fuel rules expand memory ⟨start, 0⟩)
        fun e => Distances neighbors start e.frontier) ∧
      ∀ rules ∈ Rules.stepCounts, ∀ rules' ∈ Rules.stepCounts, ∀ fuel fuel' e e',
        explore fuel rules expand memory ⟨start, 0⟩ = some e →
        explore fuel' rules' expand memory ⟨start, 0⟩ = some e' →
          ∀ n, e.frontier.known n = e'.frontier.known n := by
  have hsound : ∀ rules ∈ Rules.stepCounts, ∀ fuel e,
      explore fuel rules expand memory ⟨start, 0⟩ = some e →
        Distances neighbors start e.frontier := by
    intro rules hrules fuel e hrun
    obtain ⟨traversal, hsame⟩ := exists_explore_eq_allSteps hexpand hrules start
    rw [hsame] at hrun
    obtain ⟨hf, hqueue⟩ := explore_faithful_of_pushes rfl (hexpand _) hrun
    exact hf.distances hqueue
  refine ⟨fun rules hrules => ⟨?_, hsound rules hrules⟩, ?_⟩
  · obtain ⟨traversal, hsame⟩ := exists_explore_eq_allSteps hexpand hrules start
    simp only [hsame]
    exact exists_explore_steps rfl rfl (hexpand _) hfinite memory
  · intro rules hrules rules' hrules' fuel fuel' e e' hrun hrun' n
    have he := hsound rules hrules fuel e hrun
    have he' := hsound rules' hrules' fuel' e' hrun'
    exact Option.ext fun _ => ⟨he.known_of_known he', he'.known_of_known he⟩

theorem step_counts_agree_roundabout :
    {n | ∃ d, StepWalk roundabout 0 n d}.Finite ∧
      ∃ e e' : Exploration (Stepped Nat) Nat Unit,
        explore 9 (Rules.flood Stepped.id .breadthFirst) (.ofNeighbors roundabout) () ⟨0, 0⟩ =
            some e ∧
          explore 9 (Rules.allSteps .depthFirst) (.ofNeighbors roundabout) () ⟨0, 0⟩ = some e' ∧
          e'.visited = [⟨0, 0⟩, ⟨2, 1⟩, ⟨3, 2⟩, ⟨4, 3⟩, ⟨5, 4⟩, ⟨1, 1⟩, ⟨4, 2⟩, ⟨5, 3⟩] ∧
          e.frontier.known 5 = some ⟨5, 3⟩ ∧ e'.frontier.known 5 = some ⟨5, 3⟩ ∧
          IsLeast {d | StepWalk roundabout 0 5 d} 3 := by
  have hfinite : {n | ∃ d, StepWalk roundabout 0 n d}.Finite := by
    refine (Set.finite_le_nat 5).subset ?_
    rintro n ⟨d, hwalk⟩
    cases hwalk with
    | nil => exact Nat.zero_le 5
    | snoc _ hedge => exact le_of_mem_roundabout _ _ hedge
  have hflood : ((explore 9 (Rules.flood Stepped.id .breadthFirst) (.ofNeighbors roundabout) ()
      (⟨0, 0⟩ : Stepped Nat)).bind fun e => e.frontier.known 5) = some ⟨5, 3⟩ := by cbv
  have hsteps : (explore 9 (Rules.allSteps .depthFirst) (.ofNeighbors roundabout) ()
      (⟨0, 0⟩ : Stepped Nat)).map Exploration.visited =
      some [⟨0, 0⟩, ⟨2, 1⟩, ⟨3, 2⟩, ⟨4, 3⟩, ⟨5, 4⟩, ⟨1, 1⟩, ⟨4, 2⟩, ⟨5, 3⟩] := by cbv
  obtain ⟨e, hrun, hknown⟩ := Option.bind_eq_some_iff.mp hflood
  obtain ⟨e', hrun', hvisited⟩ := Option.map_eq_some_iff.mp hsteps
  have hagree := step_counts_agree
    (fun _ => (Expansion.ofSuccessors_offers (Stepped.successors roundabout)).pushes) hfinite ()
  have hleast := ((hagree.1 _ (by simp [Rules.stepCounts])).sound 9 e hrun).shortest 5 _ hknown
  have hsame := hagree.2 (Rules.flood Stepped.id .breadthFirst) (by simp [Rules.stepCounts])
    (Rules.allSteps .depthFirst) (by simp [Rules.stepCounts]) 9 9 e e' hrun hrun' 5
  exact ⟨hfinite, e, e', hrun, hrun', hvisited, hknown, hsame ▸ hknown, hleast.2⟩

end PuzzleKit.Search
