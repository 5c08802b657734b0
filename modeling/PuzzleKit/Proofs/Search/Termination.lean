import Mathlib.Algebra.Order.BigOperators.Group.Finset
import Mathlib.Algebra.Order.Monoid.Prod
import Mathlib.Data.Prod.Lex
import Mathlib.Data.Set.Finite.Basic
import PuzzleKit.Proofs.Search.Dominance

/-!
# Searches that end

A search under a comparison queues a state again whenever it is an improvement,
so neither the length of the queue nor the number of expansions is bounded in
advance. It ends all the same if only finitely many identities can turn up and
a state can be improved only so often, whatever is queued in which order.

The measure is lexicographic. An identity that is not seen yet weighs more than
any room for improvement that the first state of it may bring along, so every
offer that queues a state lowers the sum of these weights over the identities:
the state is the first of its identity, or leaves less room than the one whose
place it takes. A step that queues nothing leaves the sum alone and makes the
queue shorter. States at the target are never queued, so what they improve does
not matter here.
-/

namespace PuzzleKit.Search

variable {S Id M : Type} [DecidableEq Id] [Hashable Id]

/-- A run whose steps lower a well-founded measure ends on every fuel from some
amount on. -/
theorem Exploration.exists_run {rules : Rules S Id} {expand : Expansion S Id M} {α : Type}
    [LT α] [WellFoundedLT α] {m : Exploration S Id M → α}
    {P : Exploration S Id M → Prop}
    (hstep : ∀ e e', P e → e.step? rules expand = some e' → P e' ∧ m e' < m e)
    {e : Exploration S Id M} (he : P e) :
    ∃ bound, ∀ fuel, bound ≤ fuel → (e.run rules expand fuel).isSome := by
  induction hm : m e using WellFoundedLT.induction generalizing e with
  | ind _ ih =>
      subst hm
      cases hnext : e.step? rules expand with
      | none =>
          refine ⟨1, fun fuel hfuel => ?_⟩
          obtain ⟨fuel, rfl⟩ : ∃ k, fuel = k + 1 := ⟨fuel - 1, by omega⟩
          rw [run, hnext]
          rfl
      | some e' =>
          obtain ⟨he', hlt⟩ := hstep e e' he hnext
          obtain ⟨bound, hbound⟩ := ih _ hlt he' rfl
          refine ⟨bound + 1, fun fuel hfuel => ?_⟩
          obtain ⟨fuel, rfl⟩ : ∃ k, fuel = k + 1 := ⟨fuel - 1, by omega⟩
          rw [run, hnext]
          exact hbound fuel (by omega)

/-- `room` bounds how often a state that can turn up is improved: it is less for
a state that takes the place of another one. -/
def Descends (rules : Rules S Id) (compare : S → S → Ordering) (successors : S → List S)
    (start : S) (room : S → Nat) : Prop :=
  ∀ s k, Reaches successors start s → Reaches successors start k →
    rules.identity s = rules.identity k → compare s k = .lt → room s < room k

namespace Frontier

variable {rules : Rules S Id} {compare : S → S → Ordering} {successors : S → List S}
  {identities : Finset Id} {room : S → Nat} {start : S} {f : Frontier S Id}

/-- What can still happen to what is kept for one identity. -/
def slack (room : S → Nat) : Option S → Nat ×ₗ Nat
  | none => toLex (1, 0)
  | some k => toLex (0, room k)

theorem slack_lt {rival : Option S} {s : S} (h : ∀ k, rival = some k → room s < room k) :
    slack room (some s) < slack room rival := by
  rw [Prod.Lex.lt_iff]
  cases rival with
  | none => exact Or.inl Nat.zero_lt_one
  | some k => exact Or.inr ⟨rfl, h k rfl⟩

def totalSlack (identities : Finset Id) (room : S → Nat) (f : Frontier S Id) : Nat ×ₗ Nat :=
  ∑ id ∈ identities, slack room (f.known id)

theorem totalSlack_keep_lt {s : S} (hid : rules.identity s ∈ identities)
    (hdescends : ∀ k, f.known (rules.identity s) = some k → room s < room k) :
    (f.keep rules s).totalSlack identities room < f.totalSlack identities room := by
  have hself : slack room ((f.keep rules s).known (rules.identity s)) <
      slack room (f.known (rules.identity s)) := by
    rw [known_keep, if_pos rfl]
    exact slack_lt hdescends
  refine Finset.sum_lt_sum (fun id _ => ?_) ⟨rules.identity s, hid, hself⟩
  by_cases h : rules.identity s = id
  · subst h
    exact hself.le
  · rw [known_keep, if_neg h]

/-- An offer lowers the total slack, or it keeps what is known and queues
nothing. -/
theorem offer_totalSlack (hadmission : rules.admission = .improving compare)
    (hdescends : Descends rules compare successors start room)
    (hf : f.Traced rules successors start) {s : S} (hs : Reaches successors start s)
    (hid : rules.identity s ∈ identities) :
    (f.offer rules s).2.totalSlack identities room < f.totalSlack identities room ∨
      (f.offer rules s).2.totalSlack identities room = f.totalSlack identities room ∧
        (f.offer rules s).2.queue = f.queue := by
  rcases offer_cases_of_improving hadmission f s with
    ⟨-, heq⟩ | ⟨-, -, heq⟩ | ⟨-, himp, heq⟩ <;> rw [heq]
  · exact Or.inr ⟨rfl, rfl⟩
  · exact Or.inr ⟨rfl, rfl⟩
  · refine Or.inl (totalSlack_keep_lt hid fun k hk => ?_)
    rw [hk] at himp
    exact hdescends s k hs (hf.known _ k hk) (hf.identity _ k hk).symm (lt_of_improves himp)

theorem offerAll_totalSlack (hadmission : rules.admission = .improving compare)
    (hdescends : Descends rules compare successors start room)
    (hf : f.Traced rules successors start) {states : List S}
    (hstates : ∀ s ∈ states, Leads successors start s)
    (hid : ∀ s ∈ states, rules.identity s ∈ identities) :
    (f.offerAll rules states).totalSlack identities room < f.totalSlack identities room ∨
      (f.offerAll rules states).totalSlack identities room = f.totalSlack identities room ∧
        (f.offerAll rules states).queue = f.queue := by
  induction states generalizing f with
  | nil => exact Or.inr ⟨rfl, rfl⟩
  | cons s states ih =>
      rw [offerAll_cons]
      have hs := hstates s List.mem_cons_self
      have hfirst := offer_totalSlack hadmission hdescends hf hs.to_reflTransGen
        (hid s List.mem_cons_self)
      have hrest := ih (hf.offer hs) (fun t ht => hstates t (List.mem_cons_of_mem s ht))
        (fun t ht => hid t (List.mem_cons_of_mem s ht))
      rcases hfirst with hlt | ⟨heq, hqueue⟩
      · rcases hrest with hlt' | ⟨heq', -⟩
        · exact Or.inl (hlt'.trans hlt)
        · exact Or.inl (heq'.trans_lt hlt)
      · rw [heq, hqueue] at hrest
        exact hrest

/-- The total slack, and then the length of the queue. -/
def measure (identities : Finset Id) (room : S → Nat) (f : Frontier S Id) :
    (Nat ×ₗ Nat) ×ₗ Nat :=
  toLex (f.totalSlack identities room, f.queue.length)

theorem measure_lt_iff {f' : Frontier S Id} :
    f'.measure identities room < f.measure identities room ↔
      f'.totalSlack identities room < f.totalSlack identities room ∨
        f'.totalSlack identities room = f.totalSlack identities room ∧
          f'.queue.length < f.queue.length :=
  Prod.Lex.lt_iff

end Frontier

variable {rules : Rules S Id} {compare : S → S → Ordering} {successors : S → List S}
  {expand : Expansion S Id M} {start : S}

theorem Exploration.step?_measure_lt (hadmission : rules.admission = .improving compare)
    (hexpand : expand.Pushes rules successors) {room : S → Nat}
    (hdescends : Descends rules compare successors start room) {identities : Finset Id}
    (hidentities : ∀ s, Reaches successors start s → rules.identity s ∈ identities)
    {e e' : Exploration S Id M} (he : e.frontier.Traced rules successors start)
    (hstep : e.step? rules expand = some e') :
    e'.frontier.Traced rules successors start ∧
      e'.frontier.measure identities room < e.frontier.measure identities room := by
  obtain ⟨s, queue, hqueue, hcases⟩ := step?_cases_of_pushes hexpand hstep
  have htail := he.tail hqueue
  have hshorter : queue.length < e.frontier.queue.length := by
    rw [hqueue, List.length_cons]
    exact Nat.lt_succ_self _
  rcases hcases with ⟨-, heq⟩ | ⟨-, states, hstates, heq⟩
  · rw [heq]
    exact ⟨htail, Frontier.measure_lt_iff.mpr (Or.inr ⟨rfl, hshorter⟩)⟩
  · -- The state taken off the queue makes it shorter, unless its successors make
    -- it longer, and then they lower the slack, which comes first.
    have hs : Reaches successors start s := he.queue s (hqueue ▸ List.mem_cons_self)
    have hleads : ∀ t ∈ states, Leads successors start t :=
      fun t ht => .tail' hs ((hstates t).mp ht)
    rw [heq]
    refine ⟨htail.offerAll hs fun t => (hstates t).mp, Frontier.measure_lt_iff.mpr ?_⟩
    rcases Frontier.offerAll_totalSlack hadmission hdescends htail hleads
      (fun t ht => hidentities t (hleads t ht).to_reflTransGen) with hlt | ⟨hslack, hsame⟩
    · exact Or.inl hlt
    · refine Or.inr ⟨hslack, ?_⟩
      rw [hsame]
      exact hshorter

/-- A search under a comparison ends if the start reaches finitely many
identities and there is only so much room for improvement. -/
theorem explore_isSome_of_pushes (hadmission : rules.admission = .improving compare)
    (hexpand : expand.Pushes rules successors) {room : S → Nat}
    (hdescends : Descends rules compare successors start room)
    (hfinite : {id | ∃ s, Reaches successors start s ∧ rules.identity s = id}.Finite)
    (memory : M) :
    ∃ bound, ∀ fuel, bound ≤ fuel → (explore fuel rules expand memory start).isSome := by
  have hidentities : ∀ s, Reaches successors start s →
      rules.identity s ∈ hfinite.toFinset :=
    fun s hs => hfinite.mem_toFinset.mpr ⟨s, hs, rfl⟩
  exact Exploration.exists_run
    (m := fun e => e.frontier.measure hfinite.toFinset room)
    (P := fun e => e.frontier.Traced rules successors start)
    (fun e e' he hstep =>
      Exploration.step?_measure_lt hadmission hexpand hdescends hidentities he hstep) .init

theorem explore_isSome (hadmission : rules.admission = .improving compare)
    (hexpand : expand.Offers successors) {room : S → Nat}
    (hdescends : Descends rules compare successors start room)
    (hfinite : {id | ∃ s, Reaches successors start s ∧ rules.identity s = id}.Finite)
    (memory : M) :
    ∃ bound, ∀ fuel, bound ≤ fuel → (explore fuel rules expand memory start).isSome :=
  explore_isSome_of_pushes hadmission hexpand.pushes hdescends hfinite memory

end PuzzleKit.Search
