import Mathlib.Logic.Relation
import PuzzleKit.Search.Rules

/-!
# What a search keeps

A run of a search is its steps, a step is a dialogue or nothing at all, and a
dialogue is its offers. So what every offer keeps is kept by the run, and this
file says so once: one case lemma for the step, one induction for the run, and
the two facts that hold whatever is admitted and whatever the order of the
queue, namely that a state is kept under its own identity and that nothing
turns up that the pushes do not lead to.

However a dialogue goes, it makes of the frontier what the states it offers make
of it one after the other (`Dialogue.run_frontier`). Reachability is about the
searches in which these are the successors of the expanded state.
`Dialogue.Offers` says this of a dialogue without asking what it does with the
answers, so an expansion may look at the frontier and keep a memory as long as
its pushes are not changed by either. `Expansion.Pushes` is less: the order of
the pushes may be another one each time, and depend on both.
-/

namespace PuzzleKit.Search

variable {S Id M : Type} [DecidableEq Id] [Hashable Id]

/-- Zero or more pushes lead from one state to another. -/
abbrev Reaches (successors : S → List S) : S → S → Prop :=
  Relation.ReflTransGen fun a b => b ∈ successors a

/-- One or more pushes lead from one state to another. -/
abbrev Leads (successors : S → List S) : S → S → Prop :=
  Relation.TransGen fun a b => b ∈ successors a

/-! ## Offers -/

theorem Traversal.mem_enqueue {traversal : Traversal} {s t : S} {queue : List S} :
    t ∈ traversal.enqueue s queue ↔ t = s ∨ t ∈ queue := by
  cases traversal with
  | breadthFirst => simp [Traversal.enqueue, or_comm]
  | depthFirst => simp [Traversal.enqueue]

theorem Traversal.enqueue_perm {traversal : Traversal} {s : S} {queue : List S} :
    (traversal.enqueue s queue).Perm (queue ++ [s]) := by
  cases traversal with
  | breadthFirst => exact .refl _
  | depthFirst => exact (List.perm_append_singleton s queue).symm

namespace Frontier

variable {rules : Rules S Id} {f : Frontier S Id}

theorem known_start {s : S} {id : Id} :
    (start rules s).known id = if rules.identity s = id then some s else none := by
  simp [known, start, Std.HashMap.getElem?_insert]

theorem known_keep {s : S} {id : Id} :
    (f.keep rules s).known id = if rules.identity s = id then some s else f.known id := by
  simp [known, keep, Std.HashMap.getElem?_insert]

theorem mem_queue_keep {s t : S} : t ∈ (f.keep rules s).queue ↔ t = s ∨ t ∈ f.queue :=
  Traversal.mem_enqueue

/-- An offer leaves the frontier as it is, makes the state the best one at the
target, or keeps it. -/
theorem offer_cases (rules : Rules S Id) (f : Frontier S Id) (s : S) :
    f.offer rules s = (false, f) ∨
      (rules.target = some (rules.identity s) ∧
        f.offer rules s = (true, { f with best := some s })) ∨
      f.offer rules s = (true, f.keep rules s) := by
  rw [offer]
  split
  · split
    · exact Or.inl rfl
    · exact Or.inr (Or.inr rfl)
  · split
    · next htarget =>
        split
        · exact Or.inr (Or.inl ⟨htarget, rfl⟩)
        · exact Or.inl rfl
    · split
      · exact Or.inr (Or.inr rfl)
      · exact Or.inl rfl

/-- Offer the states of a list in turn. -/
def offerAll (rules : Rules S Id) (f : Frontier S Id) (states : List S) : Frontier S Id :=
  states.foldl (fun f s => (f.offer rules s).2) f

theorem offerAll_cons {s : S} {states : List S} :
    f.offerAll rules (s :: states) = (f.offer rules s).2.offerAll rules states := rfl

/-- What each offer of a list keeps, all of them keep. -/
theorem offerAll_preserves {P : Frontier S Id → Prop} {states : List S}
    (hoffer : ∀ f, ∀ s ∈ states, P f → P (f.offer rules s).2) (hf : P f) :
    P (f.offerAll rules states) := by
  induction states generalizing f with
  | nil => exact hf
  | cons s states ih =>
      rw [offerAll_cons]
      exact ih (fun f t ht => hoffer f t (List.mem_cons_of_mem s ht))
        (hoffer f s List.mem_cons_self hf)

end Frontier

/-! ## Dialogues -/

/-- The dialogue offers these states, whatever it is told. -/
inductive Dialogue.Offers : Dialogue S Id M → List S → Prop
  | done (memory : M) : Offers (.done memory) []
  | offer (s : S) {next : Bool → Frontier S Id → Dialogue S Id M} {states : List S}
      (h : ∀ admitted f, Offers (next admitted f) states) : Offers (.offer s next) (s :: states)

/-- The pushes of a state are its successors in order, whatever the expansion
remembers and whatever it sees of the frontier. -/
def Expansion.Offers (expand : Expansion S Id M) (successors : S → List S) : Prop :=
  ∀ s memory f, (expand s memory f).Offers (successors s)

theorem Dialogue.ofList_offers (memory : M) (states : List S) :
    (Dialogue.ofList memory states : Dialogue S Id M).Offers states := by
  induction states with
  | nil => exact .done memory
  | cons s states ih => exact .offer s fun _ _ => ih

theorem Expansion.ofSuccessors_offers (successors : S → List S) :
    (Expansion.ofSuccessors successors : Expansion S Id M).Offers successors :=
  fun s memory _ => Dialogue.ofList_offers memory (successors s)

/-- The states that a dialogue offers to a frontier. -/
def Dialogue.offered (rules : Rules S Id) (d : Dialogue S Id M) (f : Frontier S Id) : List S :=
  (d.run rules f).1.map Offer.state

/-- The pushes of a state are its successors, in whatever order. -/
def Expansion.Pushes (expand : Expansion S Id M) (rules : Rules S Id)
    (successors : S → List S) : Prop :=
  ∀ s memory f t, t ∈ (expand s memory f).offered rules f ↔ t ∈ successors s

theorem Dialogue.run_frontier {rules : Rules S Id} (d : Dialogue S Id M) (f : Frontier S Id) :
    (d.run rules f).2.1 = f.offerAll rules (d.offered rules f) := by
  induction d generalizing f with
  | done => rfl
  | offer s next ih =>
      rw [Dialogue.run]
      exact ih _ _ _

theorem Dialogue.Offers.offered_eq {rules : Rules S Id} {d : Dialogue S Id M} {states : List S}
    (h : d.Offers states) (f : Frontier S Id) : d.offered rules f = states := by
  induction h generalizing f with
  | done => rfl
  | offer s _ ih => exact congrArg (s :: ·) (ih _ _ _)

theorem Expansion.Offers.pushes {rules : Rules S Id} {expand : Expansion S Id M}
    {successors : S → List S} (h : expand.Offers successors) : expand.Pushes rules successors :=
  fun s memory f t => by rw [(h s memory f).offered_eq]

/-! ## Steps and runs -/

namespace Exploration

variable {rules : Rules S Id} {expand : Expansion S Id M} {successors : S → List S}

/-- A step takes the next waiting state. It drops the state, if that is
stale, or carries out its dialogue with what is left of the frontier. -/
theorem step?_cases {e e' : Exploration S Id M} (h : e.step? rules expand = some e') :
    ∃ s queue, e.frontier.queue = s :: queue ∧
      (({ e.frontier with queue }.isStale rules s = true ∧
          e' = { e with frontier := { e.frontier with queue } }) ∨
        ({ e.frontier with queue }.isStale rules s = false ∧
          ∃ offers f memory, (expand s e.memory { e.frontier with queue }).run rules
              { e.frontier with queue } = (offers, f, memory) ∧
            e' = ⟨f, memory, ⟨s, offers⟩ :: e.history⟩)) := by
  rw [step?] at h
  split at h
  · cases h
  · next s queue hqueue =>
      refine ⟨s, queue, hqueue, ?_⟩
      simp only [] at h
      split at h
      · next hstale =>
          cases h
          exact Or.inl ⟨hstale, rfl⟩
      · next hstale =>
          cases h
          exact Or.inr ⟨by simpa using hstale, _, _, _, rfl, rfl⟩

/-- The step of a search that pushes successors. -/
theorem step?_cases_of_pushes (hexpand : expand.Pushes rules successors)
    {e e' : Exploration S Id M} (h : e.step? rules expand = some e') :
    ∃ s queue, e.frontier.queue = s :: queue ∧
      (({ e.frontier with queue }.isStale rules s = true ∧
          e'.frontier = { e.frontier with queue }) ∨
        ({ e.frontier with queue }.isStale rules s = false ∧
          ∃ states, (∀ t, t ∈ states ↔ t ∈ successors s) ∧
            e'.frontier = { e.frontier with queue }.offerAll rules states)) := by
  obtain ⟨s, queue, hqueue, ⟨hstale, rfl⟩ | ⟨hfresh, offers, f, memory, hdialogue, rfl⟩⟩ :=
    step?_cases h
  · exact ⟨s, queue, hqueue, Or.inl ⟨hstale, rfl⟩⟩
  · refine ⟨s, queue, hqueue, Or.inr
      ⟨hfresh, _, hexpand s e.memory { e.frontier with queue }, ?_⟩⟩
    rw [← Dialogue.run_frontier, hdialogue]

/-- What each step keeps, a run keeps; and a run ends when nothing waits. -/
theorem run_preserves {P : Exploration S Id M → Prop}
    (hstep : ∀ e e', P e → e.step? rules expand = some e' → P e') :
    ∀ {fuel : Nat} {e e' : Exploration S Id M}, P e → e.run rules expand fuel = some e' →
      P e' ∧ e'.frontier.queue = [] := by
  intro fuel
  induction fuel with
  | zero =>
      intro e e' _ h
      cases h
  | succ fuel ih =>
      intro e e' he h
      rw [run] at h
      split at h
      · next hnone =>
          cases h
          refine ⟨he, ?_⟩
          cases hqueue : e.frontier.queue with
          | nil => rfl
          | cons s queue =>
              rw [step?, hqueue] at hnone
              simp only [] at hnone
              split at hnone <;> cases hnone
      · next next hsome => exact ih (hstep e next he hsome) h

end Exploration

theorem queue_of_explore {rules : Rules S Id} {expand : Expansion S Id M} {fuel : Nat}
    {memory : M} {s : S} {e : Exploration S Id M}
    (h : explore fuel rules expand memory s = some e) : e.frontier.queue = [] :=
  (Exploration.run_preserves (P := fun _ => True) (fun _ _ _ _ => trivial) trivial h).2

/-! ## The same search under other rules -/

section Agreement

variable {rules rules' : Rules S Id} {expand : Expansion S Id M}

/-- A dialogue goes the same way under rules that treat its offers alike, on the
frontiers that it comes by. -/
theorem Dialogue.run_congr (hidentity : rules.identity = rules'.identity)
    {P : Frontier S Id → Prop} {Q : S → Prop}
    (hoffer : ∀ f s, P f → Q s → f.offer rules s = f.offer rules' s ∧ P (f.offer rules s).2)
    (d : Dialogue S Id M) (f : Frontier S Id) (hf : P f) (hd : ∀ s ∈ d.offered rules f, Q s) :
    d.run rules f = d.run rules' f ∧ P (d.run rules f).2.1 := by
  induction d generalizing f with
  | done memory => exact ⟨rfl, hf⟩
  | offer s next ih =>
      obtain ⟨heq, hkeeps⟩ := hoffer f s hf (hd s List.mem_cons_self)
      obtain ⟨hrest, hP⟩ := ih (f.offer rules s).1 (f.offer rules s).2 (f.offer rules s).2 hkeeps
        fun t ht => hd t (List.mem_cons_of_mem s ht)
      refine ⟨?_, hP⟩
      simp only [Dialogue.run, ← hidentity, ← heq, hrest]

/-- If each waiting state is taken or dropped under both rules alike, and its
dialogue goes the same way, so does the run. -/
theorem Exploration.run_congr {P : Frontier S Id → Prop}
    (htake : ∀ f s queue memory, P f → f.queue = s :: queue →
      ({ f with queue }.isStale rules s = { f with queue }.isStale rules' s ∧ P { f with queue }) ∧
        (expand s memory { f with queue }).run rules { f with queue } =
          (expand s memory { f with queue }).run rules' { f with queue } ∧
        P ((expand s memory { f with queue }).run rules { f with queue }).2.1)
    (fuel : Nat) {e : Exploration S Id M} (he : P e.frontier) :
    e.run rules expand fuel = e.run rules' expand fuel := by
  induction fuel generalizing e with
  | zero => rfl
  | succ fuel ih =>
      have hstep : e.step? rules expand = e.step? rules' expand := by
        rw [step?, step?]
        cases hqueue : e.frontier.queue with
        | nil => rfl
        | cons s queue =>
            obtain ⟨⟨hstale, -⟩, hdialogue, -⟩ := htake e.frontier s queue e.memory he hqueue
            simp only [hstale, hdialogue]
      rw [run, run, ← hstep]
      cases hnext : e.step? rules expand with
      | none => rfl
      | some e' =>
          obtain ⟨s, queue, hqueue, ⟨-, rfl⟩ | ⟨-, offers, f, memory, hdialogue, rfl⟩⟩ :=
            step?_cases hnext
          · exact ih (htake e.frontier s queue e.memory he hqueue).1.2
          · have hkeeps := (htake e.frontier s queue e.memory he hqueue).2.2
            rw [hdialogue] at hkeeps
            exact ih hkeeps

end Agreement

/-! ## Where the states of a frontier come from -/

/-- Every state is kept under its own identity, pushes lead from the start to
every state that waits or is kept, and one push or more to the best one, which
has the identity of the target. -/
structure Frontier.Traced (rules : Rules S Id) (successors : S → List S) (start : S)
    (f : Frontier S Id) : Prop where
  identity : ∀ id k, f.known id = some k → rules.identity k = id
  queue : ∀ s ∈ f.queue, Reaches successors start s
  known : ∀ id k, f.known id = some k → Reaches successors start k
  best : ∀ b, f.best = some b →
    Leads successors start b ∧ rules.target = some (rules.identity b)

namespace Frontier

variable {rules : Rules S Id} {successors : S → List S} {start : S} {f : Frontier S Id}

theorem Traced.init : (Frontier.start rules start).Traced rules successors start where
  identity id k h := by
    rw [known_start] at h
    split at h
    · next hid => cases h; exact hid
    · cases h
  queue s hs := by
    rw [List.mem_singleton.mp hs]
  known id k h := by
    rw [known_start] at h
    split at h
    · cases h; exact .refl
    · cases h
  best b h := by cases h

theorem Traced.tail (h : f.Traced rules successors start) {s : S} {queue : List S}
    (hqueue : f.queue = s :: queue) :
    { f with queue }.Traced rules successors start where
  identity := h.identity
  queue t ht := h.queue t (hqueue ▸ List.mem_cons_of_mem s ht)
  known := h.known
  best := h.best

theorem Traced.offer (h : f.Traced rules successors start) {s : S}
    (hs : Leads successors start s) : (f.offer rules s).2.Traced rules successors start := by
  rcases offer_cases rules f s with heq | ⟨htarget, heq⟩ | heq <;> rw [heq]
  · exact h
  · refine ⟨h.identity, h.queue, h.known, ?_⟩
    intro b hb
    cases hb
    exact ⟨hs, htarget⟩
  · refine ⟨?_, ?_, ?_, h.best⟩
    · intro id k hk
      rw [known_keep] at hk
      split at hk
      · next hid => cases hk; exact hid
      · exact h.identity id k hk
    · intro t ht
      rcases mem_queue_keep.mp ht with rfl | ht
      · exact hs.to_reflTransGen
      · exact h.queue t ht
    · intro id k hk
      rw [known_keep] at hk
      split at hk
      · cases hk; exact hs.to_reflTransGen
      · exact h.known id k hk

theorem Traced.offerAll (h : f.Traced rules successors start) {s : S}
    (hs : Reaches successors start s) {states : List S}
    (hstates : ∀ t ∈ states, t ∈ successors s) :
    (f.offerAll rules states).Traced rules successors start :=
  offerAll_preserves (fun _ _ ht hf => hf.offer (.tail' hs (hstates _ ht))) h

end Frontier

end PuzzleKit.Search
