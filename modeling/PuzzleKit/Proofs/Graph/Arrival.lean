import PuzzleKit.Graph.Weighted
import PuzzleKit.Proofs.Search.Dominance

/-!
# Arrivals dominate by their cost

A search of a weighted graph for the cheapest arrivals satisfies what a search
under a comparison asks of its pushes: the costs of two arrivals at one node
move in step along every edge. That an arrival bounds all that follows it takes
one thing more, that no weight is negative.
-/

namespace PuzzleKit.WeightedGraph

open Search

variable {N : Type} {g : WeightedGraph N}

theorem isLE_compareOn_cost {a b : Arrival N} :
    (compareOn Arrival.cost a b).isLE ↔ a.cost ≤ b.cost :=
  Int.isLE_compare

theorem mem_successors {a b : Arrival N} :
    b ∈ g.successors a ↔ ∃ weight, (b.node, weight) ∈ g.edges a.node ∧ b.cost = a.cost + weight := by
  constructor
  · intro h
    obtain ⟨⟨next, weight⟩, hedge, rfl⟩ := List.mem_map.mp h
    exact ⟨weight, hedge, rfl⟩
  · rintro ⟨weight, hedge, hcost⟩
    refine List.mem_map.mpr ⟨(b.node, weight), hedge, ?_⟩
    cases b
    cases hcost
    rfl

theorem dominates_cost (g : WeightedGraph N) :
    Dominates Arrival.node (compareOn Arrival.cost) g.successors := by
  intro a b hnode hle b' hb'
  obtain ⟨weight, hedge, hcost⟩ := mem_successors.mp hb'
  refine ⟨⟨a.cost + weight, b'.node⟩, mem_successors.mpr ⟨weight, ?_, rfl⟩, rfl, ?_⟩
  · rw [hnode]; exact hedge
  · rw [isLE_compareOn_cost] at hle ⊢
    rw [hcost]
    exact Int.add_le_add_right hle weight

theorem bounds_cost (hweights : ∀ n, ∀ edge ∈ g.edges n, 0 ≤ edge.2) (target : N) :
    Bounds Arrival.node (compareOn Arrival.cost) target g.successors := by
  refine bounds_of_push_isLE fun a b hmem => ?_
  obtain ⟨weight, hedge, hcost⟩ := mem_successors.mp hmem
  have hweight := hweights _ _ hedge
  rw [isLE_compareOn_cost]
  omega

end PuzzleKit.WeightedGraph
