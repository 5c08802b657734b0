import Mathlib.Data.Set.Finite.Lattice
import PuzzleKit.Proofs.Graph.Arrival

/-!
# Walks and their weights

Arrivals are walks: the search for cheap arrivals reaches an arrival from
another one exactly if a walk leads from node to node whose weight is the
difference of the costs.

What makes such a search end is that walks cannot get ever lighter. With
negative weights this takes finitely many nodes and no closed walk of negative
weight. The bound is by induction on the set of nodes: a walk from a node
returns there for the last time after a closed walk, which takes nothing off
the weight, and what follows is one of finitely many edges and a walk that
avoids the node.
-/

namespace PuzzleKit.WeightedGraph

open Search

variable {N : Type} {g : WeightedGraph N} {a b c : N} {u v w : Int}

/-- There is a walk between two nodes with this total weight. -/
inductive Walk (g : WeightedGraph N) (a : N) : N → Int → Prop
  | nil : Walk g a a 0
  | snoc {b c : N} {w v : Int} (walk : Walk g a b w) (edge : (c, v) ∈ g.edges b) :
      Walk g a c (w + v)

theorem reaches_iff_walk {start a : Arrival N} :
    Reaches g.successors start a ↔ g.Walk start.node a.node (a.cost - start.cost) := by
  constructor
  · intro h
    induction h with
    | refl => rw [Int.sub_self]; exact .nil
    | @tail b c _ hmem ih =>
        obtain ⟨weight, hedge, hcost⟩ := mem_successors.mp hmem
        rw [show c.cost - start.cost = b.cost - start.cost + weight by omega]
        exact ih.snoc hedge
  · have hwalk : ∀ {n w}, g.Walk start.node n w →
        Reaches g.successors start ⟨start.cost + w, n⟩ := by
      intro n w h
      induction h with
      | nil => rw [Int.add_zero]
      | @snoc b c w v _ hedge ih =>
          refine ih.tail (mem_successors.mpr ⟨v, hedge, ?_⟩)
          exact (Int.add_assoc start.cost w v).symm
    intro h
    have hreaches := hwalk h
    rwa [show start.cost + (a.cost - start.cost) = a.cost by omega] at hreaches

/-- Where no edge weighs less than the rise of a potential along it, no walk
does. -/
theorem Walk.sub_le {potential : N → Int}
    (hedges : ∀ n, ∀ edge ∈ g.edges n, potential edge.1 - potential n ≤ edge.2)
    (h : g.Walk a b w) : potential b - potential a ≤ w := by
  induction h with
  | nil => omega
  | @snoc b c w v _ hedge ih =>
      have hrise : potential c - potential b ≤ v := hedges b (c, v) hedge
      omega

/-! ## Walks do not get ever lighter -/

section Bound

variable [DecidableEq N]

/-- The graph without the edges into a node. -/
def without (g : WeightedGraph N) (a : N) : WeightedGraph N where
  edges n := (g.edges n).filter fun edge => edge.1 ≠ a

theorem mem_edges_without {n : N} {edge : N × Int} :
    edge ∈ (g.without a).edges n ↔ edge ∈ g.edges n ∧ edge.1 ≠ a := by
  simp [without]

theorem Walk.of_without {n : N} (h : (g.without n).Walk a b w) : g.Walk a b w := by
  induction h with
  | nil => exact .nil
  | snoc _ hedge ih => exact ih.snoc (mem_edges_without.mp hedge).1

/-- A walk is a closed walk, and then nothing or an edge and a walk that does
not come back. -/
theorem Walk.exists_last_return (h : g.Walk a b w) :
    ∃ u v, g.Walk a a u ∧ w = u + v ∧
      (b = a ∧ v = 0 ∨
        ∃ edge ∈ (g.without a).edges a, (g.without a).Walk edge.1 b (v - edge.2)) := by
  induction h with
  | nil => exact ⟨0, 0, .nil, rfl, .inl ⟨rfl, rfl⟩⟩
  | @snoc b c w x hwalk hedge ih =>
      -- A last edge back to `a` closes the walk as a whole. Any other one only
      -- makes longer what follows the last return.
      by_cases hc : c = a
      · subst hc
        exact ⟨w + x, 0, hwalk.snoc hedge, by omega, .inl ⟨rfl, rfl⟩⟩
      · have hstay : (c, x) ∈ (g.without a).edges b := mem_edges_without.mpr ⟨hedge, hc⟩
        obtain ⟨u, v, hclosed, rfl, ⟨rfl, rfl⟩ | ⟨edge, hmem, hrest⟩⟩ := ih
        · refine ⟨u, x, hclosed, by omega, .inr ⟨(c, x), hstay, ?_⟩⟩
          rw [Int.sub_self]
          exact .nil
        · refine ⟨u, v + x, hclosed, by omega, .inr ⟨edge, hmem, ?_⟩⟩
          rw [show v + x - edge.2 = v - edge.2 + x by omega]
          exact hrest.snoc hstay

theorem bddBelow_weights (nodes : Finset N)
    (hclosed : ∀ n ∈ nodes, ∀ edge ∈ g.edges n, edge.1 ∈ nodes)
    (hcycles : ∀ n ∈ nodes, ∀ w, g.Walk n n w → 0 ≤ w) (ha : a ∈ nodes) :
    BddBelow {w | ∃ b, g.Walk a b w} := by
  induction nodes using Finset.strongInduction generalizing g a with
  | H nodes ih =>
      -- Without the edges into `a` the other nodes are closed among themselves,
      -- and they are fewer.
      have hrest : ∀ edge ∈ (g.without a).edges a,
          BddBelow {w | ∃ b, (g.without a).Walk edge.1 b (w - edge.2)} := by
        intro edge hedge
        obtain ⟨hmem, hne⟩ := mem_edges_without.mp hedge
        obtain ⟨low, hlow⟩ := ih (nodes.erase a) (Finset.erase_ssubset ha)
          (g := g.without a) (a := edge.1)
          (fun n hn next hnext => Finset.mem_erase.mpr
            ⟨(mem_edges_without.mp hnext).2,
              hclosed n (Finset.mem_of_mem_erase hn) next (mem_edges_without.mp hnext).1⟩)
          (fun n hn w hw => hcycles n (Finset.mem_of_mem_erase hn) w hw.of_without)
          (Finset.mem_erase.mpr ⟨hne, hclosed a ha edge hmem⟩)
        refine ⟨low + edge.2, fun w ⟨b, hw⟩ => ?_⟩
        have := hlow ⟨b, hw⟩
        omega
      obtain ⟨low, hlow⟩ :=
        (Set.Finite.bddBelow_biUnion ((g.without a).edges a).finite_toSet).mpr hrest
      refine ⟨min low 0, fun w ⟨b, hw⟩ => ?_⟩
      obtain ⟨u, v, hreturn, rfl, hv⟩ := hw.exists_last_return
      have hu := hcycles a ha u hreturn
      rcases hv with ⟨-, rfl⟩ | ⟨edge, hedge, hwalk⟩
      · omega
      · have := hlow (Set.mem_biUnion hedge ⟨b, hwalk⟩)
        omega

/-- If a node reaches finitely many others and none of them is on a closed walk
of negative weight, then there is a bound below all walks from the node. -/
theorem exists_le_weight (hfinite : {n | ∃ w, g.Walk a n w}.Finite)
    (hcycles : ∀ n v w, g.Walk a n v → g.Walk n n w → 0 ≤ w) :
    ∃ low, ∀ b w, g.Walk a b w → low ≤ w := by
  have hmem : ∀ {n}, n ∈ hfinite.toFinset ↔ ∃ w, g.Walk a n w := hfinite.mem_toFinset
  obtain ⟨low, hlow⟩ := bddBelow_weights (g := g) (a := a) hfinite.toFinset
    (fun n hn edge hedge => by
      obtain ⟨w, hw⟩ := hmem.mp hn
      exact hmem.mpr ⟨_, hw.snoc hedge⟩)
    (fun n hn w hclosed => by
      obtain ⟨v, hv⟩ := hmem.mp hn
      exact hcycles n v w hv hclosed)
    (hmem.mpr ⟨0, .nil⟩)
  exact ⟨low, fun b w hw => hlow ⟨b, hw⟩⟩

end Bound

end PuzzleKit.WeightedGraph
