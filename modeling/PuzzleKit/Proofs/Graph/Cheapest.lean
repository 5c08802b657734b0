import PuzzleKit.Proofs.Fuel
import PuzzleKit.Proofs.Graph.Walk
import PuzzleKit.Proofs.Search.Least
import PuzzleKit.Proofs.Search.Termination

/-!
# The cheapest arrival at every node

A search for the best arrival at every node of a finite graph ends under either
traversal with the lightest walks, whatever the signs of the weights, as long
as no closed walk takes weight off. That the search ends is a matter of how
often an arrival can be improved: no more often than its cost lies above the
bound below all walks. What it ends with is then the least arrival of each node
that a walk leads to, and there is only one of those.
-/

namespace PuzzleKit

open Search

variable {N : Type}

section Order

variable [Ord N] [Std.TransOrd N]

instance : Std.TransOrd (Arrival N) :=
  inferInstanceAs (Std.TransCmp (compareLex (compareOn Arrival.cost) (compareOn Arrival.node)))

/-- Two arrivals at one node compare by their costs. -/
theorem Arrival.compare_of_node_eq {a b : Arrival N} (h : a.node = b.node) :
    compare a b = compare a.cost b.cost := by
  change (compare a.cost b.cost).then (compare a.node b.node) = compare a.cost b.cost
  rw [h, (Std.ReflCmp.compare_self : compare b.node b.node = .eq), Ordering.then_eq]

end Order

namespace WeightedGraph

variable {M : Type} {g : WeightedGraph N} {start : Arrival N}

section Order

variable [Ord N] [Std.TransOrd N]

theorem dominates_compare (g : WeightedGraph N) :
    Dominates Arrival.node compare g.successors := by
  intro a b hnode hle b' hb'
  rw [Arrival.compare_of_node_eq hnode] at hle
  obtain ⟨a', ha', hnode', hle'⟩ := dominates_cost g a b hnode hle b' hb'
  refine ⟨a', ha', hnode', ?_⟩
  rw [Arrival.compare_of_node_eq hnode']
  exact hle'

/-- A bound below the walks bounds the room for improvement. -/
theorem descends_of_le_weight {low : Int} (hlow : ∀ n w, g.Walk start.node n w → low ≤ w)
    {traversal : Traversal} :
    Descends (Rules.all Arrival.node compare traversal) compare g.successors start
      fun a => (a.cost - start.cost - low).toNat := by
  intro a b ha hb hnode hlt
  have ha := hlow _ _ (reaches_iff_walk.mp ha)
  have hnode : a.node = b.node := hnode
  rw [Arrival.compare_of_node_eq hnode, Int.compare_eq_lt] at hlt
  simp only []
  omega

end Order

variable [DecidableEq N] [Hashable N]

/-- A frontier keeps an arrival for just the nodes that a walk leads to, the one
by the lightest walk. -/
structure Cheapest (g : WeightedGraph N) (start : Arrival N) (f : Frontier (Arrival N) N) :
    Prop where
  reached : ∀ n, n ∈ f.seen ↔ ∃ w, g.Walk start.node n w
  lightest : ∀ n a, f.known n = some a →
    ∃ d, IsLeast {w | g.Walk start.node n w} d ∧ a = ⟨start.cost + d, n⟩

theorem Cheapest.known_of_known {f f' : Frontier (Arrival N) N} (hf : g.Cheapest start f)
    (hf' : g.Cheapest start f') {n : N} {a : Arrival N} (h : f.known n = some a) :
    f'.known n = some a := by
  obtain ⟨d, hd, rfl⟩ := hf.lightest n a h
  have hwalk := (hf.reached n).mp (Frontier.mem_seen_iff.mpr ⟨_, h⟩)
  have hmem : n ∈ f'.seen := (hf'.reached n).mpr hwalk
  obtain ⟨a', ha'⟩ := Frontier.mem_seen_iff.mp hmem
  obtain ⟨d', hd', rfl⟩ := hf'.lightest n a' ha'
  rw [hd.unique hd', ha']

theorem Cheapest.known_eq {f f' : Frontier (Arrival N) N} (hf : g.Cheapest start f)
    (hf' : g.Cheapest start f') (n : N) : f.known n = f'.known n :=
  Option.ext fun _ => ⟨hf.known_of_known hf', hf'.known_of_known hf⟩

variable [Ord N] [Std.TransOrd N]

/-- What a finished search keeps is the cheapest. -/
theorem cheapest_of_faithful {f : Frontier (Arrival N) N} {traversal : Traversal}
    (hf : f.Faithful compare (Rules.all Arrival.node compare traversal) g.successors start)
    (hqueue : f.queue = []) : g.Cheapest start f := by
  have hkeeps : ∀ {n w}, g.Walk start.node n w →
      ∃ k, f.known n = some k ∧ (compare k ⟨start.cost + w, n⟩).isLE := by
    intro n w hw
    have hreaches : Reaches g.successors start ⟨start.cost + w, n⟩ := by
      rw [reaches_iff_walk]
      rwa [show start.cost + w - start.cost = w by omega]
    exact hf.keeps_of_reaches rfl (dominates_compare g) hqueue hreaches
  refine ⟨fun n => ?_, fun n a ha => ?_⟩
  · rw [Frontier.mem_seen_iff]
    constructor
    · rintro ⟨k, hk⟩
      have hnode : k.node = n := hf.traced.identity n k hk
      exact ⟨_, hnode ▸ reaches_iff_walk.mp (hf.traced.known n k hk)⟩
    · rintro ⟨w, hw⟩
      obtain ⟨k, hk, -⟩ := hkeeps hw
      exact ⟨k, hk⟩
  · have hnode : a.node = n := hf.traced.identity n a ha
    subst hnode
    refine ⟨a.cost - start.cost, ⟨reaches_iff_walk.mp (hf.traced.known _ a ha), ?_⟩, ?_⟩
    · intro w hw
      obtain ⟨k, hk, hle⟩ := hkeeps hw
      cases ha.symm.trans hk
      have hnode : a.node = (Arrival.mk (start.cost + w) a.node).node := rfl
      rw [Arrival.compare_of_node_eq hnode, Int.isLE_compare] at hle
      simp only [] at hle
      omega
    · cases a
      simp only [Arrival.mk.injEq, and_true]
      omega

/-- On a graph in which the start reaches finitely many nodes, none of them on a
closed walk of negative weight, a search for the best arrival at every node ends
under either traversal, and it ends with the cheapest arrivals; so both keep the
same. -/
theorem all_ends_cheapest (start : Arrival N) {expand : Expansion (Arrival N) N M}
    (hexpand : expand.Offers g.successors) (memory : M)
    (hfinite : {n | ∃ w, g.Walk start.node n w}.Finite)
    (hcycles : ∀ n v w, g.Walk start.node n v → g.Walk n n w → 0 ≤ w) :
    (∀ traversal, Ends
        (fun fuel => explore fuel (Rules.all Arrival.node compare traversal) expand memory start)
        fun e => g.Cheapest start e.frontier) ∧
      ∀ fuel fuel' e e',
        explore fuel (Rules.all Arrival.node compare .breadthFirst) expand memory start = some e →
        explore fuel' (Rules.all Arrival.node compare .depthFirst) expand memory start = some e' →
          ∀ n, e.frontier.known n = e'.frontier.known n := by
  have hsound : ∀ traversal fuel e,
      explore fuel (Rules.all Arrival.node compare traversal) expand memory start = some e →
        g.Cheapest start e.frontier := by
    intro traversal fuel e hrun
    obtain ⟨hf, hqueue⟩ := explore_faithful rfl hexpand hrun
    exact cheapest_of_faithful hf hqueue
  refine ⟨fun traversal => ⟨?_, hsound traversal⟩, fun fuel fuel' e e' hrun hrun' =>
    (hsound _ fuel e hrun).known_eq (hsound _ fuel' e' hrun')⟩
  obtain ⟨low, hlow⟩ := exists_le_weight hfinite hcycles
  have hidentities : {n | ∃ a, Reaches g.successors start a ∧ a.node = n} ⊆
      {n | ∃ w, g.Walk start.node n w} := by
    rintro n ⟨a, ha, rfl⟩
    exact ⟨_, reaches_iff_walk.mp ha⟩
  exact explore_isSome rfl hexpand (descends_of_le_weight hlow) (hfinite.subset hidentities) memory

/-- The weights of the lightest walks in `rebate`. -/
def rebateWeight : Nat → Int
  | 1 => -2
  | 2 => 5
  | _ => 0

theorem all_ends_cheapest_rebate :
    {n | ∃ w, rebate.Walk 0 n w}.Finite ∧
      (∀ n v w, rebate.Walk 0 n v → rebate.Walk n n w → 0 ≤ w) ∧
        ∃ e : Exploration (Arrival Nat) Nat Unit,
          explore 9 (Rules.all Arrival.node compare .depthFirst)
              (.ofSuccessors rebate.successors) () ⟨10, 0⟩ = some e ∧
            e.frontier.known 3 = some ⟨10, 3⟩ ∧ IsLeast {w | rebate.Walk 0 3 w} 0 := by
  have hedges : ∀ n, ∀ edge ∈ rebate.edges n,
      edge.1 ≤ 3 ∧ rebateWeight edge.1 - rebateWeight n ≤ edge.2 := by
    intro n
    match n with
    | 0 | 1 | 2 | _ + 3 => simp [rebate, rebateWeight]
  have hfinite : {n | ∃ w, rebate.Walk 0 n w}.Finite := by
    refine (Set.finite_le_nat 3).subset ?_
    rintro n ⟨w, hw⟩
    cases hw with
    | nil => exact Nat.zero_le 3
    | snoc _ hedge => exact (hedges _ _ hedge).1
  have hcycles : ∀ n v w, rebate.Walk 0 n v → rebate.Walk n n w → 0 ≤ w := by
    intro n v w _ hw
    have := hw.sub_le fun n edge hedge => (hedges n edge hedge).2
    omega
  have hresult : ((explore 9 (Rules.all Arrival.node compare .depthFirst)
      (.ofSuccessors rebate.successors) () ⟨10, 0⟩).bind fun e => e.frontier.known 3) =
        some (⟨10, 3⟩ : Arrival Nat) := by cbv
  obtain ⟨e, hrun, hknown⟩ := Option.bind_eq_some_iff.mp hresult
  have hends := all_ends_cheapest ⟨10, 0⟩
    (Expansion.ofSuccessors_offers rebate.successors) () hfinite hcycles
  obtain ⟨d, hleast, heq⟩ := ((hends.1 .depthFirst).sound 9 e hrun).lightest 3 _ hknown
  have hd : d = 0 := by
    have hcost : (10 : Int) = 10 + d := congrArg Arrival.cost heq
    omega
  exact ⟨hfinite, hcycles, e, hrun, hknown, hd ▸ hleast⟩

end WeightedGraph

end PuzzleKit
