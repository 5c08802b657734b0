import Mathlib.Data.List.Permutation
import PuzzleKit.Proofs.Search.Discipline
import PuzzleKit.Proofs.Search.Shortest

/-!
# Floods

A flood keeps the first state of every identity. It is the search under the
comparison that finds no state better than another (`indifferent`), so what is
known of searches under a comparison holds of it: the states that were ever kept
have different identities, and an entry that could only improve never changes.
A flood drops nothing, so each of the states kept is expanded by the time that
none waits any more.

The same comparison answers for reachability where a state is its own identity.
Then states of one identity have the same successors, and there is no room for
improvement, so the search ends once all states that can be reached are seen.
-/

namespace PuzzleKit.Search

variable {S Id M : Type}

/-- The comparison that finds no state better than another. -/
def indifferent (_ _ : S) : Ordering := .eq

instance : Std.TransCmp (indifferent : S → S → Ordering) where
  eq_swap := rfl
  isLE_trans _ _ := rfl

theorem improves_indifferent_iff {identity : S → Id} {states : List S} :
    Improves identity indifferent states ↔ (states.map identity).Nodup := by
  simp [Improves, indifferent, List.Nodup, List.pairwise_map]

variable [DecidableEq Id] [Hashable Id] {identity : S → Id} {traversal : Traversal}
  {expand : Expansion S Id M} {start : S}

namespace Frontier

/-- A flood admits the first state of an identity. -/
theorem offer_flood_cases (f : Frontier S Id) (s : S) :
    ((∃ k, f.known (identity s) = some k) ∧
        f.offer (Rules.flood identity traversal) s = (false, f)) ∨
      (f.known (identity s) = none ∧
        f.offer (Rules.flood identity traversal) s =
          (true, f.keep (Rules.flood identity traversal) s)) := by
  have hseen : f.seen.contains (identity s) = (f.known (identity s)).isSome :=
    Std.HashMap.contains_eq_isSome_getElem?
  simp only [offer, Rules.flood, hseen]
  split
  · next hsome => exact Or.inl ⟨Option.isSome_iff_exists.mp hsome, rfl⟩
  · next hnone => exact Or.inr ⟨by simpa using hnone, rfl⟩

theorem offer_flood (f : Frontier S Id) (s : S) :
    f.offer (Rules.flood identity traversal) s =
      f.offer (Rules.all identity indifferent traversal) s := by
  rcases offer_flood_cases f s with ⟨⟨k, hk⟩, heq⟩ | ⟨hnone, heq⟩ <;> rw [heq]
  · simp [offer, Rules.all, hk, improves, indifferent]
  · simp [offer, Rules.all, Rules.flood, hnone, improves, keep]

theorem known_offer_flood (f : Frontier S Id) (s : S) (id : Id) :
    (f.offer (Rules.flood identity traversal) s).2.known id =
      (f.known id).or (if identity s = id then some s else none) := by
  rcases offer_flood_cases f s with ⟨⟨k, hk⟩, heq⟩ | ⟨hnone, heq⟩ <;> rw [heq]
  · by_cases hid : identity s = id
    · rw [← hid, hk, Option.some_or]
    · rw [if_neg hid, Option.or_none]
  · rw [known_keep]
    by_cases hid : identity s = id
    · simp [← hid, hnone, Rules.flood]
    · simp [hid, Rules.flood]

theorem isStale_flood {f : Frontier S Id} (hbest : f.best = none) (s : S) :
    f.isStale (Rules.flood identity traversal) s =
      f.isStale (Rules.all identity indifferent traversal) s := by
  simp [isStale, Rules.flood, Rules.all, hbest, indifferent]

theorem offer_flood_best (f : Frontier S Id) (s : S) :
    (f.offer (Rules.flood identity traversal) s).2.best = f.best := by
  rcases offer_cases (Rules.flood identity traversal) f s with heq | ⟨htarget, -⟩ | heq
  · rw [heq]
  · cases htarget
  · rw [heq]
    rfl

end Frontier

theorem run_flood (identity : S → Id) (traversal : Traversal) (d : Dialogue S Id M)
    (f : Frontier S Id) :
    d.run (Rules.flood identity traversal) f =
        d.run (Rules.all identity indifferent traversal) f ∧
      (d.run (Rules.flood identity traversal) f).2.1.best = f.best := by
  have hidentity : (Rules.flood identity traversal).identity =
      (Rules.all identity indifferent traversal).identity := rfl
  refine Dialogue.run_congr (P := fun f' => f'.best = f.best) (Q := fun _ => True) hidentity
    (fun f' s hf' _ => ⟨f'.offer_flood s, ?_⟩) d f rfl fun _ _ => trivial
  rw [Frontier.offer_flood_best, hf']

/-- A flood is the search under the comparison that finds no state better. -/
theorem explore_flood (fuel : Nat) (memory : M) :
    explore fuel (Rules.flood identity traversal) expand memory start =
      explore fuel (Rules.all identity indifferent traversal) expand memory start := by
  refine Exploration.run_congr (P := fun f => f.best = none) (fun f s queue memory hf _ => ?_)
    fuel rfl
  obtain ⟨hdialogue, hbest⟩ := run_flood identity traversal
    (expand s memory { f with queue }) { f with queue }
  exact ⟨⟨Frontier.isStale_flood hf s, hf⟩, hdialogue, hbest.trans hf⟩

/-! ## What a flood expands -/

namespace Moment

variable {memory : M} {m m' : Moment S Id M}

/-- A step of a flood is one of the search under the indifferent comparison. It
drops nothing, and what is kept for an identity is the first state offered. -/
structure Flooded (identity : S → Id) (start : S) (m : Moment S Id M) : Prop where
  best : m.frontier.best = none
  dropped : m.dropped = []
  first : ∀ id, m.frontier.known id =
    (start :: m.offers.map Offer.state).find? fun s => identity s = id

theorem Flooded.init :
    (Moment.start (Rules.flood identity traversal) memory start).Flooded identity start where
  best := rfl
  dropped := rfl
  first id := by
    rw [Moment.start, Frontier.known_start]
    by_cases hid : identity start = id <;> simp [Rules.flood, hid]

theorem Flooded.next (h : m.Flooded identity start)
    (hstep : Next (Rules.flood identity traversal) expand m m') :
    m'.Flooded identity start ∧ Next (Rules.all identity indifferent traversal) expand m m' := by
  cases hstep with
  | @drop f s queue visited dropped offers memory hqueue hstale => cases hstale
  | @take f s queue visited dropped offers memory hqueue hfresh =>
      have hbest : { f with queue }.best = none := h.best
      rw [Frontier.isStale_flood hbest s] at hfresh
      exact ⟨⟨h.best, h.dropped, h.first⟩, .take hqueue hfresh⟩
  | @offer f s visited dropped offers next =>
      refine ⟨⟨?_, h.dropped, fun id => ?_⟩, ?_⟩
      · simpa [Frontier.offer_flood_best] using h.best
      · have hfirst := h.first id
        simp only [] at hfirst
        rw [Frontier.known_offer_flood, hfirst, List.map_append, ← List.cons_append,
          List.find?_append]
        by_cases hid : identity s = id <;> simp [Frontier.record, hid]
      · have hsame : Next (Rules.all identity indifferent traversal) expand
            ⟨f, visited, dropped, offers, .offer s next⟩ _ := .offer
        simp only [Frontier.record, ← Frontier.offer_flood] at hsame ⊢
        exact hsame

theorem flooded_of_passes
    (h : Passes (Rules.flood identity traversal) expand memory start m) :
    m.Flooded identity start ∧
      Passes (Rules.all identity indifferent traversal) expand memory start m := by
  refine h.preserves (P := fun m => m.Flooded identity start ∧
    Passes (Rules.all identity indifferent traversal) expand memory start m) ?_ ⟨.init, .refl⟩
  intro m m' ⟨hm, hpasses⟩ hstep
  obtain ⟨hm', hnext⟩ := hm.next hstep
  exact ⟨hm', hpasses.tail hnext⟩

theorem known_of_follows_flood
    (h : Follows (Rules.flood identity traversal) expand m m') {id : Id} {k : S}
    (hk : m.frontier.known id = some k) : m'.frontier.known id = some k := by
  induction h with
  | refl => exact hk
  | tail _ hstep ih =>
      cases hstep with
      | drop => exact ih
      | take => exact ih
      | offer =>
          rw [Frontier.known_offer_flood, ih, Option.some_or]

/-- Under the indifferent comparison, what was ever kept is kept. -/
theorem Orderly.known_eq_some_iff {rules : Rules S Id} (h : m.Orderly indifferent rules start)
    (id : Id) (k : S) :
    m.frontier.known id = some k ↔ k ∈ rules.kept start m.offers ∧ rules.identity k = id := by
  have hkept : ∀ id k, m.frontier.known id = some k →
      k ∈ rules.kept start m.offers ∧ rules.identity k = id := by
    intro id k hk
    rw [h.latest id] at hk
    have hmem := List.mem_reverse.mp (List.mem_of_find?_eq_some hk)
    exact ⟨hmem, by simpa using List.find?_some hk⟩
  refine ⟨hkept id k, ?_⟩
  rintro ⟨hk, rfl⟩
  obtain ⟨k', hk', -⟩ := h.keeps k hk
  obtain ⟨hmem, hid⟩ := hkept _ k' hk'
  have hnodup := improves_indifferent_iff.mp h.kept
  rw [hk', List.inj_on_of_nodup_map hnodup hmem hk hid]

end Moment

/-- A list of all states that are kept is a list of the entries. -/
theorem Frontier.perm_toList_seen {f : Frontier S Id} {states : List S}
    (hnodup : (states.map identity).Nodup)
    (hknown : ∀ id k, f.known id = some k ↔ k ∈ states ∧ identity k = id) :
    (states.map fun s => (identity s, s)).Perm f.seen.toList := by
  have hpairs : (states.map fun s => (identity s, s)).Nodup := by
    refine List.Nodup.of_map Prod.fst ?_
    rw [List.map_map]
    exact hnodup
  have hentries : f.seen.toList.Nodup := by
    refine Std.HashMap.distinct_keys_toList.imp fun {a b} hab heq => ?_
    simp [heq] at hab
  refine (List.perm_ext_iff_of_nodup hpairs hentries).mpr fun ⟨id, k⟩ => ?_
  rw [Std.HashMap.mem_toList_iff_getElem?_eq_some, ← Frontier.known, hknown]
  simp only [List.mem_map, Prod.mk.injEq]
  constructor
  · rintro ⟨s, hs, rfl, rfl⟩
    exact ⟨hs, rfl⟩
  · rintro ⟨hk, hid⟩
    exact ⟨k, hk, hid, rfl⟩

/-- Every state that was expanded is the entry of its identity, and all entries
are expanded, each once. As many offers were admitted, the start apart. The entry
of an identity is the first state of it that was offered. -/
structure FloodedOnce (identity : S → Id) (start : S) (e : Exploration S Id M) : Prop where
  entries : (e.visited.map fun s => (identity s, s)).Perm e.frontier.seen.toList
  once : (e.visited.map identity).Nodup
  expanded : e.visited.length = e.frontier.seen.size
  admitted : e.offers.countP Offer.admitted + 1 = e.frontier.seen.size
  first : ∀ id, e.frontier.known id =
    (start :: e.offers.map Offer.state).find? fun s => identity s = id

theorem floodedOnce_of_explore {fuel : Nat} {memory : M} {e : Exploration S Id M}
    (h : explore fuel (Rules.flood identity traversal) expand memory start = some e) :
    FloodedOnce identity start e := by
  obtain ⟨dropped, hpasses⟩ := Moment.passes_of_explore h
  obtain ⟨hflooded, hpasses⟩ := Moment.flooded_of_passes hpasses
  have horderly := Moment.orderly_of_passes rfl hpasses
  -- Nothing was dropped and nothing waits, so all states kept were expanded.
  have hplaces : e.visited.Perm ((Rules.all identity indifferent traversal).kept start e.offers) := by
    have hplaces := horderly.places
    rw [hflooded.dropped] at hplaces
    simpa [Exploration.moment, queue_of_explore h] using hplaces
  have honce : (e.visited.map identity).Nodup := improves_indifferent_iff.mp horderly.visited
  have hentries : (e.visited.map fun s => (identity s, s)).Perm e.frontier.seen.toList := by
    refine Frontier.perm_toList_seen honce fun id k => ?_
    rw [hplaces.mem_iff]
    exact horderly.known_eq_some_iff id k
  have hexpanded : e.visited.length = e.frontier.seen.size := by
    simpa [Std.HashMap.length_toList] using hentries.length_eq
  refine ⟨hentries, honce, hexpanded, ?_, hflooded.first⟩
  rw [← hexpanded, hplaces.length_eq]
  simp [Rules.kept, Rules.all, List.countP_eq_length_filter]

/-! ## What a flood reaches -/

section Reach

variable {successors : S → List S} {memory : M}

theorem Expansion.Pushes.indifferent
    (h : expand.Pushes (Rules.flood identity traversal) successors) :
    expand.Pushes (Rules.all identity PuzzleKit.Search.indifferent traversal) successors := by
  intro s memory f t
  rw [← h s memory f t, Dialogue.offered, Dialogue.offered, (run_flood identity traversal _ f).1]

theorem exists_explore_flood
    (hexpand : expand.Pushes (Rules.flood identity traversal) successors)
    (hfinite : {id | ∃ s, Reaches successors start s ∧ identity s = id}.Finite) (memory : M) :
    ∃ bound, ∀ fuel, bound ≤ fuel →
      (explore fuel (Rules.flood identity traversal) expand memory start).isSome := by
  have hdescends : Descends (Rules.all identity indifferent traversal) indifferent successors start
      fun _ => 0 := fun _ _ _ _ _ hlt => by cases hlt
  simp only [explore_flood]
  exact explore_isSome_of_pushes rfl hexpand.indifferent hdescends hfinite memory

theorem mem_seen_floodStates_iff [DecidableEq S] [Hashable S] {expand : Expansion S S M}
    (hexpand : expand.Pushes (Rules.floodStates traversal) successors) {fuel : Nat}
    {e : Exploration S S M}
    (hrun : explore fuel (Rules.floodStates traversal) expand memory start = some e) (s : S) :
    s ∈ e.frontier.seen ↔ Reaches successors start s := by
  rw [Rules.floodStates, explore_flood] at hrun
  obtain ⟨hf, hqueue⟩ := explore_faithful_of_pushes rfl hexpand.indifferent hrun
  have hdominates : Dominates id indifferent successors := by
    intro a b hid _ b' hb'
    have hid : a = b := hid
    exact ⟨b', hid ▸ hb', rfl, rfl⟩
  rw [Frontier.mem_seen_iff]
  constructor
  · rintro ⟨k, hk⟩
    have hid : k = s := hf.traced.identity s k hk
    exact hid ▸ hf.traced.known s k hk
  · intro hs
    obtain ⟨k, hk, -⟩ := hf.keeps_of_reaches rfl hdominates hqueue hs
    exact ⟨k, hk⟩

end Reach

/-- A flood expands each identity once. Whatever the expansion is, an entry never
changes from one moment to a later one, and if the search ends, the promises of
`FloodedOnce` hold. If the pushes depend on the state alone and a state is its
own identity, the flood keeps exactly the states that the start reaches, so the
same under both traversals, and it ends if those are finitely many. -/
theorem flood_expands_once (identity : S → Id) (expand : Expansion S Id M) (memory : M)
    (start : S) :
    (∀ traversal m m', Moment.Passes (Rules.flood identity traversal) expand memory start m →
      Moment.Follows (Rules.flood identity traversal) expand m m' →
        ∀ id k, m.frontier.known id = some k → m'.frontier.known id = some k) ∧
      (∀ traversal fuel e,
        explore fuel (Rules.flood identity traversal) expand memory start = some e →
          FloodedOnce identity start e) ∧
      ∀ [DecidableEq S] [Hashable S] (expand' : Expansion S S M) (successors : S → List S),
        (∀ traversal, expand'.Pushes (Rules.floodStates traversal) successors) →
          (∀ traversal fuel e,
            explore fuel (Rules.floodStates traversal) expand' memory start = some e →
              ∀ s, s ∈ e.frontier.seen ↔ Reaches successors start s) ∧
            (∀ fuel fuel' e e',
              explore fuel (Rules.floodStates .breadthFirst) expand' memory start = some e →
              explore fuel' (Rules.floodStates .depthFirst) expand' memory start = some e' →
                ∀ s, s ∈ e.frontier.seen ↔ s ∈ e'.frontier.seen) ∧
            ({s | Reaches successors start s}.Finite → ∀ traversal, ∃ bound, ∀ fuel, bound ≤ fuel →
              (explore fuel (Rules.floodStates traversal) expand' memory start).isSome) := by
  refine ⟨fun traversal m m' _ h id k hk => Moment.known_of_follows_flood h hk,
    fun traversal fuel e hrun => floodedOnce_of_explore hrun, ?_⟩
  intro _ _ expand' successors hexpand
  refine ⟨fun traversal fuel e hrun => mem_seen_floodStates_iff (hexpand traversal) hrun, ?_, ?_⟩
  · intro fuel fuel' e e' hrun hrun' s
    rw [mem_seen_floodStates_iff (hexpand _) hrun, mem_seen_floodStates_iff (hexpand _) hrun']
  · intro hfinite traversal
    refine exists_explore_flood (hexpand traversal) (hfinite.subset ?_) memory
    rintro s ⟨t, ht, rfl⟩
    exact ht

theorem le_of_mem_roundabout (n : Nat) : ∀ next ∈ roundabout n, next ≤ 5 := by
  match n with
  | 0 | 1 | 2 | 3 | 4 | _ + 5 => simp [roundabout]

theorem flood_expands_once_roundabout :
    (∃ e : Exploration (Stepped Nat) Nat Nat,
      explore 9 (Rules.flood Stepped.id .depthFirst)
          (.limited 4 (Stepped.successors roundabout)) 0 ⟨0, 0⟩ = some e ∧
        e.visited = [⟨0, 0⟩, ⟨2, 1⟩, ⟨3, 2⟩, ⟨4, 3⟩, ⟨5, 4⟩, ⟨1, 1⟩] ∧
        FloodedOnce Stepped.id ⟨0, 0⟩ e) ∧
      {n | Reaches roundabout 0 n}.Finite ∧
      ∃ e : Exploration Nat Nat Nat,
        explore 9 (Rules.floodStates .depthFirst) (.ofSuccessors roundabout) 0 0 = some e ∧
          e.visited = [0, 2, 3, 4, 5, 1] ∧
          (∀ n, n ∈ e.frontier.seen ↔ Reaches roundabout 0 n) ∧
          ∃ bound, ∀ fuel, bound ≤ fuel →
            (explore fuel (Rules.floodStates .breadthFirst)
              (.ofSuccessors roundabout : Expansion Nat Nat Nat) 0 0).isSome := by
  have hfinite : {n | Reaches roundabout 0 n}.Finite := by
    refine (Set.finite_le_nat 5).subset ?_
    intro n hn
    cases hn with
    | refl => exact Nat.zero_le 5
    | tail _ hedge => exact le_of_mem_roundabout _ _ hedge
  have hstepped : (explore 9 (Rules.flood Stepped.id .depthFirst)
      (.limited 4 (Stepped.successors roundabout)) 0 (⟨0, 0⟩ : Stepped Nat)).map
        Exploration.visited =
      some [⟨0, 0⟩, ⟨2, 1⟩, ⟨3, 2⟩, ⟨4, 3⟩, ⟨5, 4⟩, ⟨1, 1⟩] := by cbv
  have hplain : (explore 9 (Rules.floodStates .depthFirst) (.ofSuccessors roundabout) 0 0).map
      Exploration.visited = some [0, 2, 3, 4, 5, 1] := by cbv
  obtain ⟨e, hrun, hvisited⟩ := Option.map_eq_some_iff.mp hstepped
  obtain ⟨e', hrun', hvisited'⟩ := Option.map_eq_some_iff.mp hplain
  have honce := (flood_expands_once Stepped.id (.limited 4 (Stepped.successors roundabout)) 0
    ⟨0, 0⟩).2.1 .depthFirst 9 e hrun
  have hreach := (flood_expands_once id (.ofSuccessors roundabout) 0 0).2.2
    (.ofSuccessors roundabout) roundabout
    fun _ => (Expansion.ofSuccessors_offers roundabout).pushes
  exact ⟨⟨e, hrun, hvisited, honce⟩, hfinite, e', hrun', hvisited',
    hreach.1 .depthFirst 9 e' hrun', hreach.2.2 hfinite .breadthFirst⟩

end PuzzleKit.Search
