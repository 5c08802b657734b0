import PuzzleKit.Proofs.Search.Steps

/-!
# The levels of a breadth-first search

A search by steps that takes the states in the order they came works through levels.
While it expands states with `d` steps, the waiting ones have `d` or `d + 1` steps,
in this order, and nothing is kept with more. A best state, too, can only be found
with `d + 1` steps, by the expansion of a state with `d`, and from then on what
waits with `d + 1` steps is stale. So the search never leaves the level on which the
target turned up, and the best state bounds all that is ever kept.

This is `OnLevel`. It is kept by every push of a state one step further, whatever
else is asked of the expansion.
-/

namespace PuzzleKit.Search

variable {Id M : Type} [DecidableEq Id] [Hashable Id] {rules : Rules (Stepped Id) Id}
  {expand : Expansion (Stepped Id) Id M} {start : Id}

/-- Each push is one step further than the state that is expanded. -/
def Expansion.Advances (expand : Expansion (Stepped Id) Id M) (rules : Rules (Stepped Id) Id) :
    Prop :=
  ∀ s memory f, ∀ t ∈ (expand s memory f).offered rules f, t.steps = s.steps + 1

theorem Expansion.Pushes.advances {neighbors : Id → List Id}
    (h : expand.Pushes rules (Stepped.successors neighbors)) : expand.Advances rules :=
  fun s memory f t ht => (Stepped.mem_successors.mp ((h s memory f t).mp ht)).2

namespace Frontier

variable {d : Nat} {f : Frontier (Stepped Id) Id} {s t : Stepped Id} {queue : List (Stepped Id)}

/-- The states with `d` steps are being expanded. -/
structure OnLevel (d : Nat) (f : Frontier (Stepped Id) Id) : Prop where
  sorted : f.queue.Pairwise fun s t => s.steps ≤ t.steps
  span : ∀ s ∈ f.queue, d ≤ s.steps ∧ s.steps ≤ d + 1
  within : ∀ n s, f.known n = some s → s.steps ≤ d + 1
  best : ∀ b, f.best = some b → b.steps = d + 1

theorem OnLevel.init : (Frontier.start rules ⟨start, 0⟩).OnLevel 0 where
  sorted := List.pairwise_singleton _ _
  span s hs := by
    rw [List.mem_singleton.mp hs]
    exact ⟨Nat.le_refl 0, Nat.zero_le 1⟩
  within n s hs := by
    rw [known_start] at hs
    split at hs
    · cases hs
      exact Nat.zero_le 1
    · cases hs
  best b hb := by cases hb

theorem OnLevel.drop (h : f.OnLevel d) (hqueue : f.queue = s :: queue) :
    { f with queue }.OnLevel d where
  sorted := (List.pairwise_cons.mp (hqueue ▸ h.sorted)).2
  span t ht := h.span t (hqueue ▸ List.mem_cons_of_mem s ht)
  within := h.within
  best := h.best

theorem steps_lt_best (hadmission : rules.admission = .improving Stepped.compare)
    (hfresh : f.isStale rules s = false) : ∀ b, f.best = some b → s.steps < b.steps := by
  intro b hb
  rw [← Bool.not_eq_true, isStale_iff hadmission] at hfresh
  refine Nat.lt_of_not_le fun hbeaten => hfresh (.inl ⟨b, hb, ?_⟩)
  exact Stepped.isLE_compare.mpr hbeaten

/-- A state that is taken for its expansion is on the level or is the first of the
next one, and then there is no best state yet. -/
theorem OnLevel.take (h : f.OnLevel d) (hqueue : f.queue = s :: queue)
    (hbest : ∀ b, f.best = some b → s.steps < b.steps) : { f with queue }.OnLevel s.steps := by
  obtain ⟨hle, hge⟩ := h.span s (hqueue ▸ List.mem_cons_self)
  have hsorted := List.pairwise_cons.mp (hqueue ▸ h.sorted)
  refine ⟨hsorted.2, fun t ht => ?_, fun n t ht => ?_, fun b hb => ?_⟩
  · have hspan := h.span t (hqueue ▸ List.mem_cons_of_mem s ht)
    have hahead := hsorted.1 t ht
    omega
  · have hwithin := h.within n t ht
    omega
  · have hlevel := h.best b hb
    have hlt := hbest b hb
    omega

theorem OnLevel.keep (h : f.OnLevel d) (htraversal : rules.traversal = .breadthFirst)
    (ht : t.steps = d + 1) : (f.keep rules t).OnLevel d where
  sorted := by
    rw [Frontier.keep, htraversal]
    refine List.pairwise_append.mpr ⟨h.sorted, List.pairwise_singleton _ _, fun s hs u hu => ?_⟩
    rw [List.mem_singleton.mp hu, ht]
    exact (h.span s hs).2
  span s hs := by
    rcases mem_queue_keep.mp hs with rfl | hs
    · omega
    · exact h.span s hs
  within n s hs := by
    rw [known_keep] at hs
    split at hs
    · cases hs
      omega
    · exact h.within n s hs
  best := h.best

theorem OnLevel.offer (h : f.OnLevel d) (htraversal : rules.traversal = .breadthFirst)
    (ht : t.steps = d + 1) : (f.offer rules t).2.OnLevel d := by
  rcases offer_cases rules f t with heq | ⟨-, heq⟩ | heq <;> rw [heq]
  · exact h
  · refine ⟨h.sorted, h.span, h.within, fun b hb => ?_⟩
    cases hb
    exact ht
  · exact h.keep htraversal ht

end Frontier

/-- A breadth-first search ends on some level. -/
theorem explore_onLevel (hadmission : rules.admission = .improving Stepped.compare)
    (htraversal : rules.traversal = .breadthFirst) (hexpand : expand.Advances rules) {fuel : Nat}
    {memory : M} {e : Exploration (Stepped Id) Id M}
    (hrun : explore fuel rules expand memory ⟨start, 0⟩ = some e) :
    ∃ d, e.frontier.OnLevel d := by
  refine (Exploration.run_preserves (P := fun e => ∃ d, e.frontier.OnLevel d) ?_
    ⟨0, .init⟩ hrun).1
  rintro e e' ⟨d, hlevel⟩ hstep
  obtain ⟨s, queue, hqueue, ⟨-, rfl⟩ | ⟨hfresh, offers, f, memory, hdialogue, rfl⟩⟩ :=
    Exploration.step?_cases hstep
  · exact ⟨d, hlevel.drop hqueue⟩
  · have hkeeps := Frontier.offerAll_preserves (P := Frontier.OnLevel s.steps)
      (fun f t ht hf => hf.offer htraversal (hexpand s e.memory { e.frontier with queue } t ht))
      (hlevel.take hqueue (Frontier.steps_lt_best hadmission hfresh))
    rw [← Dialogue.run_frontier, hdialogue] at hkeeps
    exact ⟨s.steps, hkeeps⟩

end PuzzleKit.Search
