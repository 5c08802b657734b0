import PuzzleKit.Proofs.Search.Distances

/-!
# Breadth first nothing is done twice

A search by steps is free to take a better state for an identity, to expand the
identity again and to replace the best state. Taking the states in the order they
came, it never has to. Every state that is offered while a state with `d` steps is
expanded has `d + 1` steps, and on a level nothing has more than that: an identity
that has an entry has one that is at least as good, and so has the target. What was
expanded before has no more steps than what is expanded now, so it cannot be its
improvement either.

This is said of each moment of a search, also of one in the middle of an expansion
and of one that never ends (`Moment.OnLevel`), and of every expansion that pushes
identities, whatever it does with the answers and whatever it remembers. Such an
expansion is a `StepDialogue`, which does not say how many steps a push is worth.
-/

namespace PuzzleKit.Search

variable {Id M : Type}

/-! ## Expansions that push identities -/

/-- What remains of the expansion of an identity: it is over and leaves a memory, or
it pushes an identity and goes on with the answer. -/
inductive StepDialogue (Id M : Type)
  | done (memory : M)
  | push (id : Id) (next : Bool → StepDialogue Id M)

variable [DecidableEq Id] [Hashable Id]

/-- Each identity is offered one step further. -/
def StepDialogue.dialogue (steps : Nat) : StepDialogue Id M → Dialogue (Stepped Id) Id M
  | .done memory => .done memory
  | .push id next => .offer ⟨id, steps + 1⟩ fun admitted _ => (next admitted).dialogue steps

/-- The expansion that is told the identity, the steps taken to it and what it has
left in memory before. -/
def Expansion.bySteps (callback : Id → Nat → M → StepDialogue Id M) :
    Expansion (Stepped Id) Id M :=
  fun s memory _ => (callback s.id s.steps memory).dialogue s.steps

theorem StepDialogue.steps_of_mem_offered (d : StepDialogue Id M) {steps : Nat}
    {rules : Rules (Stepped Id) Id} (f : Frontier (Stepped Id) Id) :
    ∀ t ∈ (d.dialogue steps).offered rules f, t.steps = steps + 1 := by
  induction d generalizing f with
  | done memory => exact fun t ht => absurd ht List.not_mem_nil
  | push id next ih =>
      intro t ht
      rcases List.mem_cons.mp ht with rfl | ht
      · rfl
      · exact ih _ _ t ht

theorem Expansion.advances_bySteps (callback : Id → Nat → M → StepDialogue Id M)
    (rules : Rules (Stepped Id) Id) : (Expansion.bySteps callback).Advances rules :=
  fun s memory f => (callback s.id s.steps memory).steps_of_mem_offered f

/-! ## Offers on a level -/

variable {rules : Rules (Stepped Id) Id} {expand : Expansion (Stepped Id) Id M} {d : Nat}

namespace Frontier.OnLevel

variable {f : Frontier (Stepped Id) Id} {t b : Stepped Id} (h : f.OnLevel d)
  (hadmission : rules.admission = .improving Stepped.compare) (ht : t.steps = d + 1)
include h hadmission ht

theorem refuses (htarget : rules.target ≠ some (rules.identity t))
    (hseen : rules.identity t ∈ f.seen) : (f.offer rules t).1 = false := by
  obtain ⟨k, hk⟩ := mem_seen_iff.mp hseen
  rcases offer_cases_of_improving hadmission f t with ⟨-, heq⟩ | ⟨hid, -⟩ | ⟨-, himp, -⟩
  · rw [heq]
  · exact absurd hid htarget
  · rw [hk] at himp
    have hlt : t.steps < k.steps := Stepped.compare_eq_lt.mp (lt_of_improves himp)
    have hwithin := h.within _ k hk
    omega

theorem keeps_best (hb : f.best = some b) : (f.offer rules t).2.best = some b := by
  rcases offer_cases_of_improving hadmission f t with ⟨-, heq⟩ | ⟨-, himp, -⟩ | ⟨-, -, heq⟩
  · rw [heq, hb]
  · rw [hb] at himp
    have hlt : t.steps < b.steps := Stepped.compare_eq_lt.mp (lt_of_improves himp)
    have hlevel := h.best b hb
    omega
  · rw [heq]
    exact hb

end Frontier.OnLevel

/-! ## Moments on a level -/

namespace Moment

variable {m m' : Moment (Stepped Id) Id M}

/-- The states with `d` steps are being expanded, and none with more were expanded
before. What remains of the expansion under way offers states with `d + 1` steps. -/
structure OnLevel (rules : Rules (Stepped Id) Id) (d : Nat) (m : Moment (Stepped Id) Id M) :
    Prop where
  frontier : m.frontier.OnLevel d
  sorted : m.visited.Pairwise fun s t => s.steps ≤ t.steps
  reached : ∀ s ∈ m.visited, s.steps ≤ d
  rest : ∀ t ∈ m.rest.offered rules m.frontier, t.steps = d + 1

theorem OnLevel.init (memory : M) (start : Id) :
    (Moment.start rules memory ⟨start, 0⟩).OnLevel rules 0 where
  frontier := .init
  sorted := .nil
  reached _ hs := absurd hs List.not_mem_nil
  rest _ ht := absurd ht List.not_mem_nil

theorem OnLevel.next (h : m.OnLevel rules d)
    (hadmission : rules.admission = .improving Stepped.compare)
    (htraversal : rules.traversal = .breadthFirst) (hexpand : expand.Advances rules)
    (hstep : Next rules expand m m') : ∃ d', m'.OnLevel rules d' := by
  cases hstep with
  | @drop f s queue visited dropped offers memory hqueue hstale =>
      exact ⟨d, h.frontier.drop hqueue, h.sorted, h.reached,
        fun _ ht => absurd ht List.not_mem_nil⟩
  | @take f s queue visited dropped offers memory hqueue hfresh =>
      have hle : d ≤ s.steps := (h.frontier.span s (hqueue ▸ List.mem_cons_self)).1
      have hbefore : ∀ a ∈ visited, a.steps ≤ s.steps :=
        fun a ha => (h.reached a ha).trans hle
      refine ⟨s.steps, h.frontier.take hqueue (Frontier.steps_lt_best hadmission hfresh), ?_, ?_,
        hexpand s memory { f with queue }⟩
      · refine List.pairwise_append.mpr
          ⟨h.sorted, List.pairwise_singleton _ _, fun a ha b hb => ?_⟩
        rw [List.mem_singleton.mp hb]
        exact hbefore a ha
      · intro a ha
        rcases List.mem_append.mp ha with ha | ha
        · exact hbefore a ha
        · rw [List.mem_singleton.mp ha]
  | @offer f t visited dropped offers next =>
      have ht : t.steps = d + 1 := h.rest t List.mem_cons_self
      exact ⟨d, h.frontier.offer htraversal ht, h.sorted, h.reached,
        fun u hu => h.rest u (List.mem_cons_of_mem t hu)⟩

section Passing

variable (hadmission : rules.admission = .improving Stepped.compare)
  (htraversal : rules.traversal = .breadthFirst) (hexpand : expand.Advances rules)
include hadmission htraversal hexpand

theorem exists_onLevel_of_follows (h : Follows rules expand m m')
    (hm : ∃ d, m.OnLevel rules d) : ∃ d, m'.OnLevel rules d := by
  refine h.preserves (P := fun m => ∃ d, m.OnLevel rules d) ?_ hm
  rintro m₁ m₂ ⟨d, hlevel⟩ hstep
  exact hlevel.next hadmission htraversal hexpand hstep

/-- A best state stays the best one. -/
theorem best_of_follows (h : Follows rules expand m m') (hm : ∃ d, m.OnLevel rules d)
    {b : Stepped Id} (hb : m.frontier.best = some b) : m'.frontier.best = some b := by
  induction h with
  | refl => exact hb
  | tail hbefore hstep ih =>
      obtain ⟨d, hlevel⟩ := exists_onLevel_of_follows hadmission htraversal hexpand hbefore hm
      cases hstep with
      | drop => exact ih
      | take => exact ih
      | @offer f t => exact hlevel.frontier.keeps_best hadmission (hlevel.rest t List.mem_cons_self) ih

end Passing

/-- States that were expanded later have no fewer steps, so they are no improvement
of those of their identity. -/
theorem OnLevel.nodup_visited {start : Stepped Id} (h : m.OnLevel rules d)
    (horderly : m.Orderly Stepped.compare rules start) (hidentity : rules.identity = Stepped.id) :
    (m.visited.map Stepped.id).Nodup := by
  refine List.pairwise_map.mpr ?_
  refine (h.sorted.and horderly.visited).imp fun {a b} ⟨hle, himproves⟩ hid => ?_
  rw [hidentity] at himproves
  have hlt : b.steps < a.steps := Stepped.compare_eq_lt.mp (himproves hid)
  omega

/-- What waits is in the order of its steps, which span two values at most. What
was expanded is in that order as well and has different identities. A push of an
identity with an entry is refused, the target apart, and the best state is final. -/
structure Settled (rules : Rules (Stepped Id) Id) (expand : Expansion (Stepped Id) Id M)
    (m : Moment (Stepped Id) Id M) : Prop where
  waiting : m.frontier.queue.Pairwise fun s t => s.steps ≤ t.steps
  span : ∃ d, ∀ s ∈ m.frontier.queue, d ≤ s.steps ∧ s.steps ≤ d + 1
  expanded : m.visited.Pairwise fun s t => s.steps ≤ t.steps
  once : (m.visited.map Stepped.id).Nodup
  refused : ∀ t next, m.rest = .offer t next → rules.target ≠ some t.id →
    t.id ∈ m.frontier.seen → (m.frontier.offer rules t).1 = false
  best : ∀ b, m.frontier.best = some b →
    ∀ m', Follows rules expand m m' → m'.frontier.best = some b

theorem settled_of_passes (hadmission : rules.admission = .improving Stepped.compare)
    (hidentity : rules.identity = Stepped.id) (htraversal : rules.traversal = .breadthFirst)
    (hexpand : expand.Advances rules) {memory : M} {start : Id}
    (h : Passes rules expand memory ⟨start, 0⟩ m) : m.Settled rules expand := by
  have hlevels := exists_onLevel_of_follows hadmission htraversal hexpand h ⟨0, .init memory start⟩
  obtain ⟨d, hlevel⟩ := hlevels
  refine ⟨hlevel.frontier.sorted, ⟨d, hlevel.frontier.span⟩, hlevel.sorted,
    hlevel.nodup_visited (orderly_of_passes hadmission h) hidentity, ?_, ?_⟩
  · intro t next hrest htarget hseen
    have ht : t.steps = d + 1 := hlevel.rest t (by rw [hrest]; exact List.mem_cons_self)
    rw [← hidentity] at htarget hseen
    exact hlevel.frontier.refuses hadmission ht htarget hseen
  · intro b hb m' hm'
    exact best_of_follows hadmission htraversal hexpand hm' ⟨d, hlevel⟩ hb

end Moment

/-- A breadth-first search by steps never does its work again, whatever the callback
pushes and remembers: with or without a target, the promises of `Settled` hold at
each of its moments, of which what it ends with is one. A search without a target
ends with as many expansions as identities. -/
theorem breadthFirst_never_redoes (callback : Id → Nat → M → StepDialogue Id M) (memory : M)
    (start target : Id) :
    (∀ rules ∈ [Rules.allSteps .breadthFirst, Rules.bestSteps target .breadthFirst],
      (∀ m, Moment.Passes rules (.bySteps callback) memory ⟨start, 0⟩ m →
        m.Settled rules (.bySteps callback)) ∧
      ∀ fuel e, explore fuel rules (.bySteps callback) memory ⟨start, 0⟩ = some e →
        ∃ dropped, Moment.Passes rules (.bySteps callback) memory ⟨start, 0⟩ (e.moment dropped)) ∧
      ∀ fuel e,
        explore fuel (Rules.allSteps .breadthFirst) (.bySteps callback) memory ⟨start, 0⟩ = some e →
          e.history.length = e.frontier.seen.size := by
  refine ⟨fun rules hrules => ⟨fun m hm => ?_, fun fuel e => Moment.passes_of_explore⟩,
    fun fuel e hrun => ?_⟩
  · have hexpand := Expansion.advances_bySteps callback rules
    simp only [List.mem_cons, List.not_mem_nil, or_false] at hrules
    rcases hrules with rfl | rfl
    · exact Moment.settled_of_passes rfl rfl rfl hexpand hm
    · exact Moment.settled_of_passes rfl rfl rfl hexpand hm
  · -- The flood, which takes each identity once, makes the same run.
    rw [← explore_flood_steps (Expansion.advances_bySteps callback _)] at hrun
    have hexpanded := (floodedOnce_of_explore hrun).expanded
    simpa [Exploration.visited, Exploration.visits] using hexpanded

/-- Push the identities of a list up to the first that is refused. -/
def StepDialogue.untilRefused (memory : M) : List Id → StepDialogue Id M
  | [] => .done memory
  | id :: ids => .push id fun admitted => if admitted then untilRefused memory ids else .done memory

/-- The expansions over the roundabout that give up at a refusal, and push nothing any
more once there were four of them. -/
def hesitant (n _steps expanded : Nat) : StepDialogue Nat Nat :=
  .untilRefused (expanded + 1) (if expanded < 4 then roundabout n else [])

/-- From 4 the way back to 0 is refused, so 5 is not even pushed. -/
theorem breadthFirst_never_redoes_hesitant :
    ∃ (e e' : Exploration (Stepped Nat) Nat Nat) (dropped : List (Stepped Nat)),
      explore 9 (Rules.allSteps .breadthFirst) (.bySteps hesitant) 0 ⟨0, 0⟩ = some e ∧
        e.visited = [⟨0, 0⟩, ⟨1, 1⟩, ⟨2, 1⟩, ⟨4, 2⟩, ⟨3, 2⟩] ∧
        e.history.length = e.frontier.seen.size ∧
      explore 9 (Rules.bestSteps 4 .breadthFirst) (.bySteps hesitant) 0 ⟨0, 0⟩ = some e' ∧
        e'.frontier.best = some ⟨4, 2⟩ ∧
        (e'.moment dropped).Settled (Rules.bestSteps 4 .breadthFirst) (.bySteps hesitant) := by
  have hall : (explore 9 (Rules.allSteps .breadthFirst) (.bySteps hesitant) 0
      (⟨0, 0⟩ : Stepped Nat)).map Exploration.visited =
      some [⟨0, 0⟩, ⟨1, 1⟩, ⟨2, 1⟩, ⟨4, 2⟩, ⟨3, 2⟩] := by cbv
  have hbest : (explore 9 (Rules.bestSteps 4 .breadthFirst) (.bySteps hesitant) 0
      (⟨0, 0⟩ : Stepped Nat)).map (fun e => e.frontier.best) = some (some ⟨4, 2⟩) := by cbv
  obtain ⟨e, hrun, hvisited⟩ := Option.map_eq_some_iff.mp hall
  obtain ⟨e', hrun', hbest⟩ := Option.map_eq_some_iff.mp hbest
  obtain ⟨hmoments, hcount⟩ := breadthFirst_never_redoes hesitant 0 0 4
  obtain ⟨hsettled, hends⟩ := hmoments (Rules.bestSteps 4 .breadthFirst) (by simp)
  obtain ⟨dropped, hpasses⟩ := hends 9 e' hrun'
  exact ⟨e, e', dropped, hrun, hvisited, hcount 9 e hrun, hrun', hbest, hsettled _ hpasses⟩

end PuzzleKit.Search
