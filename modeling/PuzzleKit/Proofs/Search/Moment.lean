import PuzzleKit.Proofs.Search.Run

/-!
# The moments of a search

A step of an exploration carries out a whole expansion. What is promised of a
search at every point of it is about shorter steps: a waiting state is dropped,
a waiting state is taken for its expansion, or the expansion under way makes one
offer and hears the answer. `Moment.Next` are these three steps, and an
exploration only passes through moments that they lead to (`passes_of_explore`),
whether it comes to an end or not.

A moment remembers what became of the states taken so far, so that every state
ever kept can be accounted for: it was expanded, it was dropped, or it waits.
-/

namespace PuzzleKit.Search

variable {S Id M : Type} [DecidableEq Id] [Hashable Id]

/-- What an offer to a frontier leaves on record. -/
def Frontier.record (rules : Rules S Id) (f : Frontier S Id) (s : S) : Offer S :=
  ⟨s, (f.offer rules s).1, (f.offer rules s).2.known (rules.identity s), (f.offer rules s).2.best⟩

/-- A search between two expansions, when nothing remains of the latest one, or
in the middle of an expansion. -/
structure Moment (S Id M : Type) [DecidableEq Id] [Hashable Id] where
  frontier : Frontier S Id
  /-- The states whose expansion has begun, in order. -/
  visited : List S
  /-- The states that were taken and not expanded, in order. -/
  dropped : List S
  /-- The offers of all expansions, in order. -/
  offers : List (Offer S)
  rest : Dialogue S Id M

namespace Moment

/-- The search before anything is expanded. -/
def start (rules : Rules S Id) (memory : M) (s : S) : Moment S Id M :=
  ⟨Frontier.start rules s, [], [], [], .done memory⟩

inductive Next (rules : Rules S Id) (expand : Expansion S Id M) :
    Moment S Id M → Moment S Id M → Prop
  | drop {f : Frontier S Id} {s : S} {queue visited dropped : List S} {offers : List (Offer S)}
      {memory : M} (hqueue : f.queue = s :: queue)
      (hstale : { f with queue }.isStale rules s = true) :
      Next rules expand ⟨f, visited, dropped, offers, .done memory⟩
        ⟨{ f with queue }, visited, dropped ++ [s], offers, .done memory⟩
  | take {f : Frontier S Id} {s : S} {queue visited dropped : List S} {offers : List (Offer S)}
      {memory : M} (hqueue : f.queue = s :: queue)
      (hfresh : { f with queue }.isStale rules s = false) :
      Next rules expand ⟨f, visited, dropped, offers, .done memory⟩
        ⟨{ f with queue }, visited ++ [s], dropped, offers, expand s memory { f with queue }⟩
  | offer {f : Frontier S Id} {s : S} {visited dropped : List S} {offers : List (Offer S)}
      {next : Bool → Frontier S Id → Dialogue S Id M} :
      Next rules expand ⟨f, visited, dropped, offers, .offer s next⟩
        ⟨(f.offer rules s).2, visited, dropped, offers ++ [f.record rules s],
          next (f.offer rules s).1 (f.offer rules s).2⟩

abbrev Follows (rules : Rules S Id) (expand : Expansion S Id M) :
    Moment S Id M → Moment S Id M → Prop :=
  Relation.ReflTransGen (Next rules expand)

/-- The search from a state passes through this moment. -/
abbrev Passes (rules : Rules S Id) (expand : Expansion S Id M) (memory : M) (s : S) :
    Moment S Id M → Prop :=
  Follows rules expand (start rules memory s)

variable {rules : Rules S Id} {expand : Expansion S Id M} {m m' : Moment S Id M}

/-- What each step keeps, all moments have that follow. -/
theorem Follows.preserves {P : Moment S Id M → Prop}
    (hnext : ∀ m m', P m → Next rules expand m m' → P m')
    (h : Follows rules expand m m') (hm : P m) : P m' := by
  induction h with
  | refl => exact hm
  | tail _ hstep ih => exact hnext _ _ ih hstep

end Moment

/-! ## The moments that an exploration passes through -/

namespace Exploration

/-- The offers of all expansions, in order. -/
def offers (e : Exploration S Id M) : List (Offer S) := e.visits.flatMap Visit.offers

/-- The moment between two expansions. -/
def moment (e : Exploration S Id M) (dropped : List S) : Moment S Id M :=
  ⟨e.frontier, e.visited, dropped, e.offers, .done e.memory⟩

theorem visited_cons {f : Frontier S Id} {memory : M} {v : Visit S} {history : List (Visit S)} :
    visited (⟨f, memory, v :: history⟩ : Exploration S Id M) =
      visited (⟨f, memory, history⟩ : Exploration S Id M) ++ [v.state] := by
  simp [visited, visits]

theorem offers_cons {f : Frontier S Id} {memory : M} {v : Visit S} {history : List (Visit S)} :
    offers (⟨f, memory, v :: history⟩ : Exploration S Id M) =
      offers (⟨f, memory, history⟩ : Exploration S Id M) ++ v.offers := by
  simp [offers, visits]

/-- Pushes lead from the start to every state that is expanded. -/
theorem reaches_of_mem_visited {rules : Rules S Id} {expand : Expansion S Id M}
    {successors : S → List S} (hexpand : expand.Pushes rules successors) {fuel : Nat} {memory : M}
    {start : S} {e : Exploration S Id M} (h : explore fuel rules expand memory start = some e) :
    ∀ s ∈ e.visited, Reaches successors start s := by
  refine (run_preserves (P := fun e => e.frontier.Traced rules successors start ∧
    ∀ s ∈ e.visited, Reaches successors start s) ?_
    ⟨.init, fun _ hs => absurd hs List.not_mem_nil⟩ h).1.2
  intro e e' ⟨htraced, hvisited⟩ hstep
  obtain ⟨s, queue, hqueue, ⟨-, rfl⟩ | ⟨-, offers, f, memory, hdialogue, rfl⟩⟩ := step?_cases hstep
  · exact ⟨htraced.tail hqueue, hvisited⟩
  · have hs : Reaches successors start s := htraced.queue s (hqueue ▸ List.mem_cons_self)
    constructor
    · have hkeeps := (htraced.tail hqueue).offerAll hs fun t =>
        (hexpand s e.memory { e.frontier with queue } t).mp
      rw [← Dialogue.run_frontier, hdialogue] at hkeeps
      exact hkeeps
    · intro t ht
      rw [visited_cons] at ht
      rcases List.mem_append.mp ht with ht | ht
      · exact hvisited t ht
      · exact List.mem_singleton.mp ht ▸ hs

end Exploration

namespace Moment

variable {rules : Rules S Id} {expand : Expansion S Id M}

theorem follows_of_dialogue (rules : Rules S Id) (expand : Expansion S Id M)
    (d : Dialogue S Id M) (f : Frontier S Id) (visited dropped : List S)
    (offers : List (Offer S)) :
    Follows rules expand ⟨f, visited, dropped, offers, d⟩
      ⟨(d.run rules f).2.1, visited, dropped, offers ++ (d.run rules f).1,
        .done (d.run rules f).2.2⟩ := by
  induction d generalizing f offers with
  | done memory =>
      rw [Dialogue.run, List.append_nil]
  | offer s next ih =>
      have hrest := ih (f.offer rules s).1 (f.offer rules s).2 (f.offer rules s).2
        (offers ++ [f.record rules s])
      rw [List.append_assoc] at hrest
      exact .head .offer hrest

theorem follows_of_step? {e e' : Exploration S Id M} (h : e.step? rules expand = some e')
    (dropped : List S) :
    ∃ dropped', Follows rules expand (e.moment dropped) (e'.moment dropped') := by
  obtain ⟨s, queue, hqueue, ⟨hstale, rfl⟩ | ⟨hfresh, offers, f, memory, hdialogue, rfl⟩⟩ :=
    Exploration.step?_cases h
  · exact ⟨dropped ++ [s], .single (.drop hqueue hstale)⟩
  · have hrest := follows_of_dialogue rules expand
      (expand s e.memory { e.frontier with queue }) { e.frontier with queue }
      (e.visited ++ [s]) dropped e.offers
    rw [hdialogue] at hrest
    refine ⟨dropped, .head (.take hqueue hfresh) ?_⟩
    rw [Exploration.moment, Exploration.visited_cons, Exploration.offers_cons]
    exact hrest

theorem follows_of_run {fuel : Nat} {e e' : Exploration S Id M}
    (h : e.run rules expand fuel = some e') (dropped : List S) :
    ∃ dropped', Follows rules expand (e.moment dropped) (e'.moment dropped') := by
  refine (Exploration.run_preserves
    (P := fun e₁ => ∃ dropped', Follows rules expand (e.moment dropped) (e₁.moment dropped'))
    (fun e₁ e₂ ⟨dropped₁, h₁⟩ hstep => ?_) ⟨dropped, .refl⟩ h).1
  obtain ⟨dropped₂, h₂⟩ := follows_of_step? hstep dropped₁
  exact ⟨dropped₂, h₁.trans h₂⟩

/-- What a search ends with is one of its moments. -/
theorem passes_of_explore {fuel : Nat} {memory : M} {s : S} {e : Exploration S Id M}
    (h : explore fuel rules expand memory s = some e) :
    ∃ dropped, Passes rules expand memory s (e.moment dropped) :=
  follows_of_run h []

end Moment

/-! ## The states that were ever kept -/

/-- The states that were kept for their identities, in order, the start first. -/
def Rules.kept (rules : Rules S Id) (start : S) (offers : List (Offer S)) : List S :=
  start :: (offers.filter fun o =>
    o.admitted && decide (rules.target ≠ some (rules.identity o.state))).map Offer.state

section Kept

omit [Hashable Id]

variable {rules : Rules S Id} (start : S) (offers : List (Offer S)) {o : Offer S}

theorem Rules.kept_append_of_kept (hadmitted : o.admitted = true)
    (htarget : rules.target ≠ some (rules.identity o.state)) :
    rules.kept start (offers ++ [o]) = rules.kept start offers ++ [o.state] := by
  simp [kept, hadmitted, htarget]

theorem Rules.kept_append_of_not_kept
    (h : o.admitted = false ∨ rules.target = some (rules.identity o.state)) :
    rules.kept start (offers ++ [o]) = rules.kept start offers := by
  rcases h with h | h <;> simp [kept, h]

end Kept

end PuzzleKit.Search
