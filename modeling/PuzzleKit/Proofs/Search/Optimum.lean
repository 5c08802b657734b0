import Mathlib.Order.Defs.LinearOrder
import PuzzleKit.Proofs.Graph.Arrival

/-!
# The best state at the target

A search for the best state at a target answers with the least of all that can
be reached there by a push or more. The start does not count even if it is at
the target, since nothing offers it; states at the target are not expanded, so
a chain of pushes that passes through the target is answered for by the state
it meets there first, which bounds the rest.

The argument follows such a chain from the start. As long as the best state
does not beat all that the chain may still come to, a state is kept for each
identity on the way that is at least as good as the chain's own.
-/

namespace PuzzleKit.Search

variable {S Id M : Type} [DecidableEq Id] [Hashable Id]

variable {identity : S → Id} {compare : S → S → Ordering} {successors : S → List S} {target : Id}
  {traversal : Traversal}

/-- The best state beats whatever a state leads to at the target, the state
itself included. -/
def Frontier.Beats (compare : S → S → Ordering) (rules : Rules S Id) (successors : S → List S)
    (f : Frontier S Id) (s : S) : Prop :=
  ∃ b, f.best = some b ∧
    ∀ t, Reaches successors s t → rules.target = some (rules.identity t) → (compare b t).isLE

namespace Frontier

variable {f : Frontier S Id} {start : S}

theorem beats_of_isLE (hbounds : Bounds identity compare target successors)
    (hf : f.Faithful compare (Rules.best identity compare target traversal) successors start)
    {b s : S} (hb : f.best = some b) (hle : (compare b s).isLE) :
    f.Beats compare (Rules.best identity compare target traversal) successors s := by
  have hid : identity b = target := (Option.some.inj (hf.traced.best b hb).2).symm
  exact ⟨b, hb, fun t hreaches ht =>
    hbounds.isLE_of_reaches hid hle hreaches (Option.some.inj ht).symm⟩

variable [Std.TransCmp compare]

/-- One push further along a chain. -/
theorem beats_or_keeps_of_push (hdominates : Dominates identity compare successors)
    (hbounds : Bounds identity compare target successors)
    (hf : f.Faithful compare (Rules.best identity compare target traversal) successors start)
    (hqueue : f.queue = []) {s s' : S}
    (hs : f.Keeps compare (Rules.best identity compare target traversal) s)
    (hs' : s' ∈ successors s) :
    f.Beats compare (Rules.best identity compare target traversal) successors s' ∨
      identity s' ≠ target ∧
        f.Keeps compare (Rules.best identity compare target traversal) s' := by
  rcases hf.covers_successor hdominates hqueue hs hs' with ⟨b, hb, hle⟩ | ⟨r, hr, hle⟩
  · obtain ⟨b', hb', hbeats⟩ := beats_of_isLE hbounds hf hb hle
    exact Or.inl ⟨b', hb', fun t hreaches => hbeats t (hreaches.head hs')⟩
  · -- The rival at the target is the best state, elsewhere it is the one kept.
    rw [rival] at hr
    split at hr
    · exact Or.inl (beats_of_isLE hbounds hf hr hle)
    · next hne => exact Or.inr ⟨fun h => hne (congrArg some h.symm), r, hr, hle⟩

theorem beats_or_keeps (hdominates : Dominates identity compare successors)
    (hbounds : Bounds identity compare target successors)
    (hf : f.Faithful compare (Rules.best identity compare target traversal) successors start)
    (hqueue : f.queue = []) {s : S} (hs : Reaches successors start s) :
    f.Beats compare (Rules.best identity compare target traversal) successors s ∨
      f.Keeps compare (Rules.best identity compare target traversal) s := by
  induction hs with
  | refl => exact Or.inr hf.start
  | tail _ hpush ih =>
      rcases ih with ⟨b, hb, hbeats⟩ | hkeeps
      · exact Or.inl ⟨b, hb, fun t hreaches => hbeats t (hreaches.head hpush)⟩
      · exact (beats_or_keeps_of_push hdominates hbounds hf hqueue hkeeps hpush).imp_right
          And.right

/-- Whatever is led to at the target is beaten. -/
theorem exists_best_of_leads (hdominates : Dominates identity compare successors)
    (hbounds : Bounds identity compare target successors)
    (hf : f.Faithful compare (Rules.best identity compare target traversal) successors start)
    (hqueue : f.queue = []) {t : S} (hleads : Leads successors start t)
    (ht : identity t = target) : ∃ b, f.best = some b ∧ (compare b t).isLE := by
  obtain ⟨s, hs, hpush⟩ := Relation.TransGen.tail'_iff.mp hleads
  have hbeats : f.Beats compare (Rules.best identity compare target traversal) successors t := by
    rcases beats_or_keeps hdominates hbounds hf hqueue hs with ⟨b, hb, hbeats⟩ | hkeeps
    · exact ⟨b, hb, fun t' hreaches => hbeats t' (hreaches.head hpush)⟩
    · rcases beats_or_keeps_of_push hdominates hbounds hf hqueue hkeeps hpush with
        hbeats | ⟨hne, -⟩
      · exact hbeats
      · exact absurd ht hne
  obtain ⟨b, hb, hle⟩ := hbeats
  exact ⟨b, hb, hle t .refl (congrArg some ht.symm)⟩

end Frontier

/-- A finished search has no best state just if no push or more leads to the
target, and otherwise its best state is one of those led to there and at least
as good as all of them. -/
theorem best_isLeast [Std.TransCmp compare] {expand : Expansion S Id M}
    (hexpand : expand.Offers successors) (hdominates : Dominates identity compare successors)
    (hbounds : Bounds identity compare target successors) {fuel : Nat} {memory : M} {start : S}
    {e : Exploration S Id M}
    (hrun : explore fuel (Rules.best identity compare target traversal) expand memory start =
      some e) :
    (e.frontier.best = none ↔ ¬∃ t, Leads successors start t ∧ identity t = target) ∧
      ∀ b, e.frontier.best = some b →
        Leads successors start b ∧ identity b = target ∧
          ∀ t, Leads successors start t → identity t = target → (compare b t).isLE := by
  obtain ⟨hf, hqueue⟩ := explore_faithful rfl hexpand hrun
  have hbest : ∀ t, Leads successors start t → identity t = target →
      ∃ b, e.frontier.best = some b ∧ (compare b t).isLE :=
    fun t => Frontier.exists_best_of_leads hdominates hbounds hf hqueue
  constructor
  · constructor
    · rintro hnone ⟨t, hleads, ht⟩
      obtain ⟨b, hb, -⟩ := hbest t hleads ht
      rw [hnone] at hb
      cases hb
    · intro hnot
      cases hb : e.frontier.best with
      | none => rfl
      | some b =>
          obtain ⟨hleads, hid⟩ := hf.traced.best b hb
          exact absurd ⟨b, hleads, (Option.some.inj hid).symm⟩ hnot
  · intro b hb
    obtain ⟨hleads, hid⟩ := hf.traced.best b hb
    refine ⟨hleads, (Option.some.inj hid).symm, fun t ht hidt => ?_⟩
    obtain ⟨b', hb', hle⟩ := hbest t ht hidt
    cases hb.symm.trans hb'
    exact hle

/-- A graph in which the edge to a node costs more than the way round, and in
which the target has an edge back. -/
def detour : WeightedGraph Nat where
  edges
    | 0 => [(1, 1), (2, 5)]
    | 1 => [(2, 1), (3, 7)]
    | 2 => [(3, 1), (1, 1)]
    | _ => [(0, 0)]

theorem best_isLeast_detour : ∃ e : Exploration (Arrival Nat) Nat Unit,
    explore 9 (Rules.best Arrival.node (compareOn Arrival.cost) 3 .depthFirst)
        (.ofSuccessors detour.successors) () ⟨0, 0⟩ = some e ∧
      e.frontier.best = some ⟨3, 3⟩ ∧
      ∀ t, Leads detour.successors ⟨0, 0⟩ t → t.node = 3 →
        (compareOn Arrival.cost ⟨3, 3⟩ t).isLE := by
  have hweights : ∀ n, ∀ edge ∈ detour.edges n, 0 ≤ edge.2 := by
    intro n
    match n with
    | 0 | 1 | 2 | _ + 3 => simp [detour]
  have hbest : ((explore 9 (Rules.best Arrival.node (compareOn Arrival.cost) 3 .depthFirst)
      (.ofSuccessors detour.successors) () ⟨0, 0⟩).bind fun e => e.frontier.best) =
        some ⟨3, 3⟩ := by cbv
  obtain ⟨e, hrun, hb⟩ := Option.bind_eq_some_iff.mp hbest
  have hleast := best_isLeast (Expansion.ofSuccessors_offers detour.successors)
    (WeightedGraph.dominates_cost detour) (WeightedGraph.bounds_cost hweights 3) hrun
  exact ⟨e, hrun, hb, (hleast.2 _ hb).2.2⟩

end PuzzleKit.Search
