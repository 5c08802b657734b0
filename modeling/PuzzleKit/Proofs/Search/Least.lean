import Mathlib.Order.Defs.LinearOrder
import PuzzleKit.Proofs.Graph.Arrival

/-!
# The best state of every identity

Without a target nothing is ever cut off by a best state, so a search under a
comparison answers for everything the start reaches: once nothing waits, each
state along a chain of pushes is kept for its identity or dominated by the one
that is. States may well get better along the pushes. If a state is superseded
after its expansion, the better one has successors that dominate what the first
has pushed; if it is superseded before, its own successors were never needed.
-/

namespace PuzzleKit.Search

variable {S Id M : Type} [DecidableEq Id] [Hashable Id]

namespace Frontier

variable {rules : Rules S Id} {compare : S → S → Ordering} {successors : S → List S}
  {f : Frontier S Id} {start : S}

theorem mem_seen_iff {id : Id} : id ∈ f.seen ↔ ∃ k, f.known id = some k := by
  rw [Std.HashMap.mem_iff_isSome_getElem?, Option.isSome_iff_exists]
  rfl

theorem Traced.best_eq_none (h : f.Traced rules successors start) (htarget : rules.target = none) :
    f.best = none := by
  cases hb : f.best with
  | none => rfl
  | some b =>
      obtain ⟨-, hid⟩ := h.best b hb
      rw [htarget] at hid
      cases hid

theorem Faithful.keeps_of_reaches [Std.TransCmp compare]
    (h : f.Faithful compare rules successors start) (htarget : rules.target = none)
    (hdominates : Dominates rules.identity compare successors) (hqueue : f.queue = []) {s : S}
    (hs : Reaches successors start s) : f.Keeps compare rules s := by
  induction hs with
  | refl => exact h.start
  | tail _ hpush ih =>
      rcases h.covers_successor hdominates hqueue ih hpush with ⟨b, hb, -⟩ | ⟨r, hr, hle⟩
      · rw [h.traced.best_eq_none htarget] at hb
        cases hb
      · rw [rival, htarget, if_neg (by rintro ⟨⟩)] at hr
        exact ⟨r, hr, hle⟩

end Frontier

variable {identity : S → Id} {compare : S → S → Ordering} {successors : S → List S}
  {traversal : Traversal}

/-- When a search for the best state of every identity ends, it keeps a state
for the identities of the states that the start reaches and for no others; the
state is one of those, and at least as good as all of them. -/
theorem all_isLeast [Std.TransCmp compare] {expand : Expansion S Id M}
    (hexpand : expand.Offers successors) (hdominates : Dominates identity compare successors)
    {fuel : Nat} {memory : M} {start : S} {e : Exploration S Id M}
    (hrun : explore fuel (Rules.all identity compare traversal) expand memory start = some e) :
    (∀ id, id ∈ e.frontier.seen ↔ ∃ s, Reaches successors start s ∧ identity s = id) ∧
      ∀ id k, e.frontier.known id = some k →
        Reaches successors start k ∧ identity k = id ∧
          ∀ s, Reaches successors start s → identity s = id → (compare k s).isLE := by
  obtain ⟨hf, hqueue⟩ := explore_faithful rfl hexpand hrun
  have hkeeps : ∀ s, Reaches successors start s →
      e.frontier.Keeps compare (Rules.all identity compare traversal) s :=
    fun s => hf.keeps_of_reaches rfl hdominates hqueue
  refine ⟨fun id => ?_, fun id k hk => ?_⟩
  · rw [Frontier.mem_seen_iff]
    constructor
    · rintro ⟨k, hk⟩
      exact ⟨k, hf.traced.known id k hk, hf.traced.identity id k hk⟩
    · rintro ⟨s, hs, rfl⟩
      obtain ⟨k, hk, -⟩ := hkeeps s hs
      exact ⟨k, hk⟩
  · refine ⟨hf.traced.known id k hk, hf.traced.identity id k hk, fun s hs hid => ?_⟩
    obtain ⟨k', hk', hle⟩ := hkeeps s hs
    have hid : (Rules.all identity compare traversal).identity s = id := hid
    rw [hid, hk] at hk'
    cases hk'
    exact hle

/-- A graph in which the way round is the cheaper one to a node, and may be
found after the node was expanded. Going round and round costs nothing. -/
def rebate : WeightedGraph Nat where
  edges
    | 0 => [(1, 1), (2, 5)]
    | 1 => [(2, 7), (3, 2)]
    | 2 => [(1, -7)]
    | _ => []

theorem all_isLeast_rebate : ∃ e : Exploration (Arrival Nat) Nat Unit,
    explore 9 (Rules.all Arrival.node (compareOn Arrival.cost) .breadthFirst)
        (.ofSuccessors rebate.successors) () ⟨0, 0⟩ = some e ∧
      e.visited = [⟨0, 0⟩, ⟨1, 1⟩, ⟨5, 2⟩, ⟨3, 3⟩, ⟨-2, 1⟩, ⟨0, 3⟩] ∧
      e.frontier.known 3 = some ⟨0, 3⟩ ∧
      ∀ s, Reaches rebate.successors ⟨0, 0⟩ s → s.node = 3 →
        (compareOn Arrival.cost ⟨0, 3⟩ s).isLE := by
  have hresult : ((explore 9 (Rules.all Arrival.node (compareOn Arrival.cost) .breadthFirst)
      (.ofSuccessors rebate.successors) () ⟨0, 0⟩).map fun e =>
        (e.visited, e.frontier.known 3)) =
      some ([⟨0, 0⟩, ⟨1, 1⟩, ⟨5, 2⟩, ⟨3, 3⟩, ⟨-2, 1⟩, ⟨0, 3⟩], some ⟨0, 3⟩) := by cbv
  obtain ⟨e, hrun, heq⟩ := Option.map_eq_some_iff.mp hresult
  obtain ⟨hvisited, hknown⟩ := Prod.mk.inj heq
  have hleast := all_isLeast (Expansion.ofSuccessors_offers rebate.successors)
    (WeightedGraph.dominates_cost rebate) hrun
  exact ⟨e, hrun, hvisited, hknown, (hleast.2 3 _ hknown).2.2⟩

end PuzzleKit.Search
