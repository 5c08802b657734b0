import Mathlib.Data.List.Basic
import PuzzleKit.Proofs.Search.Least
import PuzzleKit.Proofs.Search.Moment

/-!
# Nothing is expanded twice without an improvement

At every moment of a search under a comparison, the states that were ever kept
for one identity got better one by one (`Improves`), and each of them was
expanded, was dropped, or still waits. From that everything else follows. The
state that is kept now is the latest of them, so at least as good as all of
them. And of two states that were expanded, the later one is the better one, in
whatever order the queue gave them out: they were kept as different entries, so
one is strictly better, and had it been the earlier one, the later one would
have been stale when it was taken.

Nothing is asked of the expansion. Its offers may depend on all the answers it
got and on a memory of its own, since each offer keeps the invariant by itself.
-/

namespace PuzzleKit.Search

variable {S Id M : Type}

/-- What was there stays, or gives way to something strictly better. -/
def OnlyImproves (compare : S → S → Ordering) (old new : Option S) : Prop :=
  ∀ k, old = some k → ∃ k', new = some k' ∧ (k' = k ∨ compare k' k = .lt)

/-- Of two states of one identity in the list, the later one is strictly better. -/
def Improves (identity : S → Id) (compare : S → S → Ordering) (states : List S) : Prop :=
  states.Pairwise fun a b => identity a = identity b → compare b a = .lt

section Order

variable {identity : S → Id} {compare : S → S → Ordering} {states : List S}

theorem OnlyImproves.refl (rival : Option S) : OnlyImproves compare rival rival :=
  fun k hk => ⟨k, hk, Or.inl rfl⟩

theorem onlyImproves_of_improves {s : S} {rival : Option S}
    (h : improves compare s rival = true) : OnlyImproves compare rival (some s) := by
  intro k hk
  rw [hk] at h
  exact ⟨s, rfl, Or.inr (lt_of_improves h)⟩

variable [Std.TransCmp compare]

theorem OnlyImproves.trans {a b c : Option S} (hab : OnlyImproves compare a b)
    (hbc : OnlyImproves compare b c) : OnlyImproves compare a c := by
  intro k hk
  obtain ⟨k', hk', hle⟩ := hab k hk
  obtain ⟨k'', hk'', hle'⟩ := hbc k' hk'
  refine ⟨k'', hk'', ?_⟩
  rcases hle with rfl | hlt
  · exact hle'
  · rcases hle' with rfl | hlt'
    · exact Or.inr hlt
    · exact Or.inr (Std.TransCmp.lt_trans hlt' hlt)

theorem compare_self_ne_lt (s : S) : compare s s ≠ .lt := by
  simp [(Std.ReflCmp.compare_self : compare s s = .eq)]

theorem Improves.nodup (h : Improves identity compare states) : states.Nodup := by
  refine h.imp fun {a b} hab heq => ?_
  subst heq
  exact compare_self_ne_lt a (hab rfl)

/-- In whatever order they are listed, no two of the states are equally good. -/
theorem Improves.compare_ne_eq (h : Improves identity compare states) {l : List S}
    (hl : l.Perm states) : l.Pairwise fun a b => identity a = identity b → compare a b ≠ .eq := by
  have happart : states.Pairwise fun a b => identity a = identity b → compare a b ≠ .eq := by
    refine h.imp fun {a b} hab hid heq => ?_
    rw [Std.OrientedCmp.eq_comm, hab hid] at heq
    cases heq
  refine happart.perm hl.symm fun {a b} hab hid heq => ?_
  exact hab hid.symm (Std.OrientedCmp.eq_comm.mp heq)

end Order

variable [DecidableEq Id] [Hashable Id]

namespace Frontier

variable {rules : Rules S Id} {compare : S → S → Ordering} {f : Frontier S Id}

/-- An offer is admitted just if it changes what is known. -/
theorem offer_admitted_iff [Std.TransCmp compare] (hadmission : rules.admission = .improving compare)
    (f : Frontier S Id) (s : S) :
    (f.offer rules s).1 = true ↔
      (∃ id, (f.offer rules s).2.known id ≠ f.known id) ∨ (f.offer rules s).2.best ≠ f.best := by
  have hself : ¬improves compare s (some s) = true := fun h =>
    compare_self_ne_lt s (lt_of_improves h)
  rcases offer_cases_of_improving hadmission f s with
    ⟨-, heq⟩ | ⟨-, himp, heq⟩ | ⟨-, himp, heq⟩ <;> rw [heq]
  · simp
  · refine ⟨fun _ => Or.inr fun hbest => ?_, fun _ => rfl⟩
    rw [← hbest] at himp
    exact hself himp
  · refine ⟨fun _ => Or.inl ⟨rules.identity s, fun hknown => ?_⟩, fun _ => rfl⟩
    rw [← hknown, known_keep, if_pos rfl] at himp
    exact hself himp

theorem offer_onlyImproves (hadmission : rules.admission = .improving compare)
    (f : Frontier S Id) (s : S) :
    (∀ id, OnlyImproves compare (f.known id) ((f.offer rules s).2.known id)) ∧
      OnlyImproves compare f.best (f.offer rules s).2.best := by
  rcases offer_cases_of_improving hadmission f s with
    ⟨-, heq⟩ | ⟨-, himp, heq⟩ | ⟨-, himp, heq⟩ <;> rw [heq]
  · exact ⟨fun _ => .refl _, .refl _⟩
  · exact ⟨fun _ => .refl _, onlyImproves_of_improves himp⟩
  · refine ⟨fun id => ?_, .refl _⟩
    rw [known_keep]
    split
    · next hid =>
        rw [← hid]
        exact onlyImproves_of_improves himp
    · exact .refl _

end Frontier

namespace Moment

variable {rules : Rules S Id} {compare : S → S → Ordering} {expand : Expansion S Id M} {start : S}
  {m m' : Moment S Id M}

/-- The invariant of a search under a comparison. -/
structure Orderly (compare : S → S → Ordering) (rules : Rules S Id) (start : S)
    (m : Moment S Id M) : Prop where
  places : (m.visited ++ m.dropped ++ m.frontier.queue).Perm (rules.kept start m.offers)
  latest : ∀ id, m.frontier.known id =
    (rules.kept start m.offers).reverse.find? fun s => rules.identity s = id
  keeps : ∀ s ∈ rules.kept start m.offers, m.frontier.Keeps compare rules s
  kept : Improves rules.identity compare (rules.kept start m.offers)
  visited : Improves rules.identity compare m.visited

section Orderly

variable [Std.TransCmp compare] {f : Frontier S Id} {visited dropped : List S}
  {offers : List (Offer S)} {d : Dialogue S Id M} {o : Offer S}

theorem Orderly.init (memory : M) :
    (Moment.start rules memory start).Orderly compare rules start where
  places := .refl _
  latest id := by
    rw [Moment.start, Frontier.known_start]
    simp [Rules.kept]
  keeps s hs := by
    rw [List.mem_singleton.mp hs]
    exact ⟨start, by simp [Moment.start, Frontier.known_start], Std.ReflCmp.isLE_rfl⟩
  kept := List.pairwise_singleton _ _
  visited := .nil

/-- A state that is not stale when it is taken is better than those of its
identity that were expanded before. -/
theorem Orderly.compare_visited_eq_lt (h : m.Orderly compare rules start)
    (hadmission : rules.admission = .improving compare) {s : S} {queue : List S}
    (hqueue : m.frontier.queue = s :: queue)
    (hfresh : { m.frontier with queue }.isStale rules s = false) {a : S} (ha : a ∈ m.visited)
    (hid : rules.identity a = rules.identity s) : compare s a = .lt := by
  have hne : compare a s ≠ .eq := by
    have hall := (List.pairwise_append.mp (h.kept.compare_ne_eq h.places)).2.2
    exact hall a (List.mem_append_left _ ha) s (hqueue ▸ List.mem_cons_self) hid
  obtain ⟨k, hk, hle⟩ := h.keeps a
    (h.places.mem_iff.mp (List.mem_append_left _ (List.mem_append_left _ ha)))
  have hnot : ¬compare k s = .lt := by
    intro hlt
    rw [hid] at hk
    have hstale := (Frontier.isStale_iff (f := { m.frontier with queue }) hadmission).mpr
      (Or.inr ⟨k, hk, hlt⟩)
    rw [hfresh] at hstale
    cases hstale
  cases has : compare a s with
  | lt => exact absurd (Std.TransCmp.lt_of_isLE_of_lt hle has) hnot
  | eq => exact absurd has hne
  | gt => exact Std.OrientedCmp.gt_iff_lt.mp has

theorem Orderly.keep (h : Orderly compare rules start ⟨f, visited, dropped, offers, d⟩)
    (hadmitted : o.admitted = true) (htarget : rules.target ≠ some (rules.identity o.state))
    (himp : improves compare o.state (f.known (rules.identity o.state)) = true)
    (rest : Dialogue S Id M) :
    Orderly compare rules start
      ⟨f.keep rules o.state, visited, dropped, offers ++ [o], rest⟩ := by
  have hkept := Rules.kept_append_of_kept start offers hadmitted htarget
  refine ⟨?_, fun id => ?_, fun t ht => ?_, ?_, h.visited⟩
  · have hqueue : (f.keep rules o.state).queue.Perm (f.queue ++ [o.state]) :=
      Traversal.enqueue_perm
    rw [hkept]
    refine (hqueue.append_left _).trans ?_
    rw [← List.append_assoc]
    exact h.places.append_right [o.state]
  · have hlatest := h.latest id
    simp only [] at hlatest
    rw [hkept, Frontier.known_keep, List.reverse_append, hlatest]
    by_cases hid : rules.identity o.state = id <;> simp [hid]
  · rw [hkept] at ht
    rcases List.mem_append.mp ht with ht | ht
    · obtain ⟨k, hk, hle⟩ := h.keeps t ht
      obtain ⟨k', hk', hle'⟩ := (Frontier.grows_keep himp).known _ k hk
      exact ⟨k', hk', Std.TransCmp.isLE_trans hle' hle⟩
    · rw [List.mem_singleton.mp ht]
      exact ⟨o.state, by rw [Frontier.known_keep, if_pos rfl], Std.ReflCmp.isLE_rfl⟩
  · rw [hkept]
    refine List.pairwise_append.mpr ⟨h.kept, List.pairwise_singleton _ _, fun a ha b hb hid => ?_⟩
    rw [List.mem_singleton.mp hb] at hid ⊢
    obtain ⟨k, hk, hle⟩ := h.keeps a ha
    rw [hid] at hk
    simp only [] at hk
    rw [hk] at himp
    exact Std.TransCmp.lt_of_lt_of_isLE (lt_of_improves himp) hle

omit [Std.TransCmp compare] in
/-- An offer that is not kept changes nothing, the best state apart. -/
theorem Orderly.pass (h : Orderly compare rules start ⟨f, visited, dropped, offers, d⟩)
    (hpass : o.admitted = false ∨ rules.target = some (rules.identity o.state))
    (best : Option S) (rest : Dialogue S Id M) :
    Orderly compare rules start ⟨{ f with best }, visited, dropped, offers ++ [o], rest⟩ := by
  have hkept := Rules.kept_append_of_not_kept start offers hpass
  refine ⟨?_, ?_, ?_, ?_, h.visited⟩ <;> rw [hkept]
  · exact h.places
  · exact h.latest
  · exact h.keeps
  · exact h.kept

theorem Orderly.next (h : m.Orderly compare rules start)
    (hadmission : rules.admission = .improving compare) (hstep : Next rules expand m m') :
    m'.Orderly compare rules start := by
  cases hstep with
  | @drop f s queue visited dropped offers memory hqueue hstale =>
      have hplaces := h.places
      simp only [hqueue] at hplaces
      exact { h with places := by simpa using hplaces }
  | @take f s queue visited dropped offers memory hqueue hfresh =>
      have hplaces := h.places
      simp only [hqueue] at hplaces
      refine { h with places := ?_, visited := ?_ }
      · -- The state goes from the head of the queue to the end of the expanded ones.
        have hmove : (visited ++ s :: (dropped ++ queue)).Perm
            (visited ++ (dropped ++ s :: queue)) := List.perm_middle.symm.append_left visited
        rw [← List.append_assoc visited dropped] at hmove
        simpa using hmove.trans hplaces
      · refine List.pairwise_append.mpr
          ⟨h.visited, List.pairwise_singleton _ _, fun a ha b hb hid => ?_⟩
        rw [List.mem_singleton.mp hb] at hid ⊢
        exact h.compare_visited_eq_lt hadmission hqueue hfresh ha hid
  | @offer f s visited dropped offers next =>
      rcases Frontier.offer_cases_of_improving hadmission f s with
        ⟨-, heq⟩ | ⟨htarget, -, heq⟩ | ⟨htarget, himp, heq⟩
      · have hrecord : (f.record rules s).admitted = false := by rw [Frontier.record, heq]
        have hpass := h.pass (Or.inl hrecord) f.best (next false f)
        rwa [heq]
      · have hrecord : rules.target = some (rules.identity (f.record rules s).state) := htarget
        have hpass := h.pass (Or.inr hrecord) (some s) (next true { f with best := some s })
        rwa [heq]
      · have hrecord : (f.record rules s).admitted = true := by rw [Frontier.record, heq]
        have hkeep := h.keep hrecord htarget himp (next true (f.keep rules s))
        rwa [heq]

theorem orderly_of_passes (hadmission : rules.admission = .improving compare) {memory : M}
    (h : Passes rules expand memory start m) : m.Orderly compare rules start :=
  h.preserves (fun _ _ hm hstep => hm.next hadmission hstep) (.init memory)

end Orderly

/-- From one moment to a later one, entries and the best state only improve. -/
def Improved (compare : S → S → Ordering) (m m' : Moment S Id M) : Prop :=
  (∀ id, OnlyImproves compare (m.frontier.known id) (m'.frontier.known id)) ∧
    OnlyImproves compare m.frontier.best m'.frontier.best

theorem improved_of_next (hadmission : rules.admission = .improving compare)
    (hstep : Next rules expand m m') : Improved compare m m' := by
  cases hstep with
  | drop => exact ⟨fun _ => .refl _, .refl _⟩
  | take => exact ⟨fun _ => .refl _, .refl _⟩
  | @offer f s => exact Frontier.offer_onlyImproves hadmission f s

theorem improved_of_follows [Std.TransCmp compare]
    (hadmission : rules.admission = .improving compare) (h : Follows rules expand m m') :
    Improved compare m m' := by
  induction h with
  | refl => exact ⟨fun _ => .refl _, .refl _⟩
  | tail _ hstep ih =>
      obtain ⟨hknown, hbest⟩ := improved_of_next hadmission hstep
      exact ⟨fun id => (ih.1 id).trans (hknown id), ih.2.trans hbest⟩

/-- A state that waits is no better than the one kept for its identity. The
states expanded for one identity are better and better, so none of them is
expanded twice, and they are no more than the states that were kept for it, of
which the latest is the one kept now. -/
structure Disciplined (compare : S → S → Ordering) (rules : Rules S Id) (start : S)
    (m : Moment S Id M) : Prop where
  waiting : ∀ s ∈ m.frontier.queue, m.frontier.Keeps compare rules s
  expanded : Improves rules.identity compare m.visited
  once : m.visited.Nodup
  bounded : ∀ id, m.visited.countP (fun s => rules.identity s = id) ≤
    (rules.kept start m.offers).countP fun s => rules.identity s = id
  latest : ∀ id, m.frontier.known id =
    (rules.kept start m.offers).reverse.find? fun s => rules.identity s = id

theorem Orderly.disciplined [Std.TransCmp compare] (h : m.Orderly compare rules start) :
    m.Disciplined compare rules start where
  waiting s hs := h.keeps s (h.places.mem_iff.mp (List.mem_append_right _ hs))
  expanded := h.visited
  once := h.visited.nodup
  bounded id := by
    rw [← h.places.countP_eq, List.countP_append, List.countP_append]
    omega
  latest := h.latest

end Moment

/-- The discipline of a search under a comparison, with or without a target and
under either traversal. An offer is admitted just if it changes an entry or the
best state. At every moment of the search the promises of `Disciplined` hold,
and up to any later moment what is kept for an identity, and the best state,
only give way to strictly better states. What a search ends with is one of its
moments. -/
theorem improvement_discipline {rules : Rules S Id} {compare : S → S → Ordering}
    [Std.TransCmp compare] (hadmission : rules.admission = .improving compare)
    (expand : Expansion S Id M) (memory : M) (start : S) :
    (∀ (f : Frontier S Id) (s : S), (f.offer rules s).1 = true ↔
      (∃ id, (f.offer rules s).2.known id ≠ f.known id) ∨ (f.offer rules s).2.best ≠ f.best) ∧
      (∀ m, Moment.Passes rules expand memory start m →
        m.Disciplined compare rules start ∧
          ∀ m', Moment.Follows rules expand m m' → Moment.Improved compare m m') ∧
      ∀ fuel e, explore fuel rules expand memory start = some e →
        ∃ dropped, Moment.Passes rules expand memory start (e.moment dropped) := by
  refine ⟨Frontier.offer_admitted_iff hadmission, fun m hm => ⟨?_, fun m' hm' => ?_⟩,
    fun fuel e hrun => Moment.passes_of_explore hrun⟩
  · exact (Moment.orderly_of_passes hadmission hm).disciplined
  · exact Moment.improved_of_follows hadmission hm'

theorem improvement_discipline_rebate : ∃ (e : Exploration (Arrival Nat) Nat Nat) (dropped : _),
    explore 9 (Rules.all Arrival.node (compareOn Arrival.cost) .breadthFirst)
        (.limited 4 rebate.successors) 0 ⟨0, 0⟩ = some e ∧
      e.visited = [⟨0, 0⟩, ⟨1, 1⟩, ⟨5, 2⟩, ⟨3, 3⟩, ⟨-2, 1⟩] ∧
      (e.moment dropped).Disciplined (compareOn Arrival.cost)
        (Rules.all Arrival.node (compareOn Arrival.cost) .breadthFirst) ⟨0, 0⟩ := by
  have hresult : ((explore 9 (Rules.all Arrival.node (compareOn Arrival.cost) .breadthFirst)
      (.limited 4 rebate.successors) 0 ⟨0, 0⟩).map Exploration.visited) =
      some [⟨0, 0⟩, ⟨1, 1⟩, ⟨5, 2⟩, ⟨3, 3⟩, ⟨-2, 1⟩] := by cbv
  obtain ⟨e, hrun, hvisited⟩ := Option.map_eq_some_iff.mp hresult
  have hdiscipline := @improvement_discipline (Arrival Nat) Nat Nat _ _
    (Rules.all Arrival.node (compareOn Arrival.cost) .breadthFirst) (compareOn Arrival.cost) _
    rfl (.limited 4 rebate.successors) 0 ⟨0, 0⟩
  obtain ⟨dropped, hpasses⟩ := hdiscipline.2.2 9 e hrun
  exact ⟨e, dropped, hrun, hvisited, (hdiscipline.2.1 _ hpasses).1⟩

end PuzzleKit.Search
