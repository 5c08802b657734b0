import PuzzleKit.Proofs.Search.Discipline
import PuzzleKit.Proofs.Search.Level
import PuzzleKit.Proofs.Search.Shortest

/-!
# The steps recorded on the way to a target

A search by steps for a target also leaves a number of steps for the nodes it came
by. Up to the distance of the target these are the lengths of the shortest walks,
and all nodes that near are there, the target apart. For a shortest walk to one of
them does not pass the target, and the nodes on it have fewer steps than the best
state, so they are expanded with their own shortest numbers.

What is recorded beyond the target was found before the best state was, and depends
on the order. Breadth first there is nothing beyond it, since the search never
leaves the level of the target. Depth first a node may be left with the number of a
long way round: the shorter way to it leads over a state that the best one has made
stale, as in `bypass`.
-/

namespace PuzzleKit.Search

variable {Id M : Type} {neighbors : Id → List Id} {start target v : Id} {n : Nat}

/-- There are no more steps than in a shortest walk with an edge to the target, if
any leads there. -/
def UpToTarget (neighbors : Id → List Id) (start target : Id) (n : Nat) : Prop :=
  ∀ d, IsLeast {d | 0 < d ∧ StepWalk neighbors start target d} d → n ≤ d

theorem UpToTarget.le_of_stepWalk (h : UpToTarget neighbors start target n) {d : Nat}
    (hpos : 0 < d) (hwalk : StepWalk neighbors start target d) : n ≤ d := by
  classical
  have hexists : ∃ d, 0 < d ∧ StepWalk neighbors start target d := ⟨d, hpos, hwalk⟩
  exact (h _ (Nat.isLeast_find hexists)).trans (Nat.find_min' hexists ⟨hpos, hwalk⟩)

variable [DecidableEq Id] [Hashable Id] {traversal : Traversal}

/-! ## The target is not recorded -/

section Kept

variable {S : Type} {rules : Rules S Id} {compare : S → S → Ordering} {start s : S}

omit [Hashable Id] in
theorem Rules.eq_start_or_ne_target_of_mem_kept {offers : List (Offer S)}
    (h : s ∈ rules.kept start offers) : s = start ∨ rules.target ≠ some (rules.identity s) := by
  rcases List.mem_cons.mp h with rfl | h
  · exact .inl rfl
  · obtain ⟨o, ho, rfl⟩ := List.mem_map.mp h
    simp only [List.mem_filter, Bool.and_eq_true, decide_eq_true_eq] at ho
    exact .inr ho.2.2

/-- Nothing but the start is ever kept for the identity of the target. -/
theorem Moment.Orderly.eq_start_of_known_target {m : Moment S Id M} {id : Id}
    (h : m.Orderly compare rules start) (hid : rules.target = some id)
    (hs : m.frontier.known id = some s) : s = start := by
  rw [h.latest] at hs
  have hmem := List.mem_reverse.mp (List.mem_of_find?_eq_some hs)
  have hidentity : rules.identity s = id := by simpa using List.find?_some hs
  refine (Rules.eq_start_or_ne_target_of_mem_kept hmem).resolve_right fun hne => hne ?_
  rw [hidentity, hid]

end Kept

/-! ## Shortest numbers -/

variable {f : Frontier (Stepped Id) Id}

theorem Frontier.Traced.le_best
    (hf : f.Traced (Rules.bestSteps target traversal) (Stepped.successors neighbors) ⟨start, 0⟩)
    (hn : UpToTarget neighbors start target n) {b : Stepped Id} (hb : f.best = some b) :
    n ≤ b.steps := by
  obtain ⟨hleads, htarget⟩ := hf.best b hb
  obtain ⟨hpos, hwalk⟩ := Stepped.leads_iff_stepWalk.mp hleads
  have hid : target = b.id := Option.some.inj htarget
  exact hn.le_of_stepWalk hpos (hid ▸ hwalk)

namespace Frontier.Faithful

variable
  (hf : f.Faithful Stepped.compare (Rules.bestSteps target traversal)
    (Stepped.successors neighbors) ⟨start, 0⟩)
  (hqueue : f.queue = [])
include hf hqueue

/-- Following a walk that is no longer than a shortest one to the target. -/
theorem keeps_of_stepWalk (hwalk : StepWalk neighbors start v n)
    (hn : UpToTarget neighbors start target n) (hv : v ≠ target ∨ v = start) :
    ∃ k, f.known v = some k ∧ k.steps ≤ n := by
  have hstart : ∃ k, f.known start = some k ∧ k.steps ≤ 0 := by
    obtain ⟨k, hk, hle⟩ := hf.start
    exact ⟨k, hk, Stepped.isLE_compare.mp hle⟩
  induction hwalk with
  | nil => exact hstart
  | @snoc u v n hwalk hedge ih =>
      -- The walk so far would be too short for one to the target.
      have hu : u ≠ target ∨ u = start := by
        by_contra hnot
        obtain ⟨rfl, hne⟩ := not_or.mp hnot |>.imp_left not_not.mp
        exact Nat.not_succ_le_self n (hn.le_of_stepWalk (hwalk.pos (Ne.symm hne)) hwalk)
      obtain ⟨k, hk, hle⟩ := ih (fun d hd => (Nat.le_succ n).trans (hn d hd)) hu
      have hkeeps : f.Keeps Stepped.compare (Rules.bestSteps target traversal) ⟨u, n⟩ :=
        ⟨k, hk, Stepped.isLE_compare.mpr hle⟩
      have hmem : (⟨v, n + 1⟩ : Stepped Id) ∈ Stepped.successors neighbors ⟨u, n⟩ :=
        Stepped.mem_successors.mpr ⟨hedge, rfl⟩
      rcases hf.covers_successor (Stepped.dominates_compare neighbors) hqueue hkeeps hmem with
        ⟨b, hb, hle⟩ | ⟨r, hr, hle⟩
      · have hlt : n < b.steps := hf.traced.le_best hn hb
        exact absurd (Stepped.isLE_compare.mp hle) (Nat.not_le_of_lt hlt)
      · rw [rival] at hr
        split at hr
        · next htarget =>
            have hvtarget : v = target := (Option.some.inj htarget).symm
            rw [hv.resolve_left fun hne => hne hvtarget]
            obtain ⟨k, hk, hle⟩ := hstart
            exact ⟨k, hk, hle.trans (Nat.zero_le _)⟩
        · exact ⟨r, hr, Stepped.isLE_compare.mp hle⟩

theorem known_of_isLeast (hleast : IsLeast {d | StepWalk neighbors start v d} n)
    (hn : UpToTarget neighbors start target n) (hv : v ≠ target ∨ v = start) :
    f.known v = some ⟨v, n⟩ := by
  obtain ⟨⟨id, steps⟩, hk, hle⟩ := hf.keeps_of_stepWalk hqueue hleast.1 hn hv
  obtain ⟨hid, hwalk⟩ := hf.traced.stepWalk_of_known rfl hk
  have hsteps : steps = n := Nat.le_antisymm hle (hleast.2 hwalk)
  rw [hk, hsteps]
  exact congrArg (fun id => some (Stepped.mk id n)) hid

theorem isLeast_of_known {s : Stepped Id} (hs : f.known v = some s)
    (hn : UpToTarget neighbors start target s.steps) (hv : v ≠ target ∨ v = start) :
    IsLeast {d | StepWalk neighbors start v d} s.steps := by
  refine ⟨(hf.traced.stepWalk_of_known rfl hs).2, fun d hwalk => ?_⟩
  -- A shorter walk does not go further than the target either, so it would be kept.
  by_contra hlt
  have hshorter : UpToTarget neighbors start target d :=
    fun d' hd' => (Nat.le_of_not_le hlt).trans (hn d' hd')
  obtain ⟨k, hk, hle⟩ := hf.keeps_of_stepWalk hqueue hwalk hshorter hv
  cases hs.symm.trans hk
  exact hlt hle

theorem upToTarget_of_onLevel {level : Nat} (hlevel : f.OnLevel level) {s : Stepped Id}
    (hs : f.known v = some s) : UpToTarget neighbors start target s.steps := by
  intro d hd
  have hshortest := hf.shortest hqueue
  cases hb : f.best with
  | none => exact absurd ⟨d, hd.1⟩ (hshortest.none_iff.mp hb)
  | some b =>
      have hleast := ((hshortest.some_iff b).mp hb).2
      calc s.steps
          ≤ level + 1 := hlevel.within v s hs
        _ = b.steps := (hlevel.best b hb).symm
        _ = d := hleast.unique hd

end Frontier.Faithful

/-! ## What is recorded -/

theorem ne_target_or_eq_start_of_known {expand : Expansion (Stepped Id) Id M}
    {fuel : Nat} {memory : M} {e : Exploration (Stepped Id) Id M}
    (hrun : explore fuel (Rules.bestSteps target traversal) expand memory ⟨start, 0⟩ = some e)
    {s : Stepped Id} (hs : e.frontier.known v = some s) (hid : s.id = v) :
    v ≠ target ∨ v = start := by
  refine or_iff_not_imp_left.mpr fun hv => ?_
  obtain ⟨dropped, hpasses⟩ := Moment.passes_of_explore hrun
  have horderly : (e.moment dropped).Orderly Stepped.compare (Rules.bestSteps target traversal)
      ⟨start, 0⟩ := Moment.orderly_of_passes rfl hpasses
  have htarget : (Rules.bestSteps target traversal).target = some v :=
    congrArg some (not_not.mp hv).symm
  rw [← hid, horderly.eq_start_of_known_target htarget hs]

/-- Breadth first, a search by steps for a target records just the nodes that are no
further than the target, which itself is left out unless it is the start, and it
records them with the lengths of the shortest walks. It does so on every graph in
which the start reaches finitely many nodes, in whatever order the out-neighbours of
a node are pushed. -/
theorem breadthFirst_known_iff {expand : Expansion (Stepped Id) Id M}
    (hexpand : expand.Pushes (Rules.bestSteps target .breadthFirst) (Stepped.successors neighbors))
    (hfinite : {b | ∃ d, StepWalk neighbors start b d}.Finite) (memory : M) :
    Ends (fun fuel =>
        explore fuel (Rules.bestSteps target .breadthFirst) expand memory ⟨start, 0⟩)
      fun e => ∀ v s, e.frontier.known v = some s ↔
        s.id = v ∧ (v ≠ target ∨ v = start) ∧
          IsLeast {d | StepWalk neighbors start v d} s.steps ∧
            ∀ d, IsLeast {d | 0 < d ∧ StepWalk neighbors start target d} d → s.steps ≤ d where
  isSome := exists_explore_steps rfl rfl hexpand hfinite memory
  sound fuel e hrun v s := by
    obtain ⟨hf, hqueue⟩ := explore_faithful_of_pushes rfl hexpand hrun
    obtain ⟨level, hlevel⟩ := explore_onLevel rfl rfl hexpand.advances hrun
    constructor
    · intro hs
      have hid := (hf.traced.stepWalk_of_known rfl hs).1
      have hv := ne_target_or_eq_start_of_known hrun hs hid
      have hn := hf.upToTarget_of_onLevel hqueue hlevel hs
      exact ⟨hid, hv, hf.isLeast_of_known hqueue hs hn hv, hn⟩
    · rintro ⟨rfl, hv, hleast, hn⟩
      exact hf.known_of_isLeast hqueue hleast hn hv

theorem breadthFirst_known_iff_roundabout :
    {b | ∃ d, StepWalk roundabout 0 b d}.Finite ∧
      ∃ e : Exploration (Stepped Nat) Nat Unit,
        explore 9 (Rules.bestSteps 4 .breadthFirst) (.ofNeighbors roundabout) () ⟨0, 0⟩ = some e ∧
          e.frontier.best = some ⟨4, 2⟩ ∧
          e.frontier.known 3 = some ⟨3, 2⟩ ∧ IsLeast {d | StepWalk roundabout 0 3 d} 2 ∧
          (∀ d, IsLeast {d | 0 < d ∧ StepWalk roundabout 0 4 d} d → 2 ≤ d) ∧
          e.frontier.known 4 = none ∧ e.frontier.known 5 = none := by
  have hfinite : {b | ∃ d, StepWalk roundabout 0 b d}.Finite :=
    StepWalk.finite_of_closed (List.mem_cons_self : 0 ∈ [0, 1, 2, 3, 4, 5]) (by decide)
  have hresult : ((explore 9 (Rules.bestSteps 4 .breadthFirst) (.ofNeighbors roundabout) ()
      (⟨0, 0⟩ : Stepped Nat)).map fun e =>
        (e.frontier.best, [3, 4, 5].map e.frontier.known)) =
      some (some ⟨4, 2⟩, [some ⟨3, 2⟩, none, none]) := by cbv
  obtain ⟨e, hrun, heq⟩ := Option.map_eq_some_iff.mp hresult
  obtain ⟨hbest, hknown⟩ := Prod.mk.inj heq
  simp only [List.map_cons, List.map_nil, List.cons.injEq, and_true] at hknown
  obtain ⟨hknown3, hknown4, hknown5⟩ := hknown
  have hpushes : (Expansion.ofNeighbors roundabout : Expansion (Stepped Nat) Nat Unit).Pushes
      (Rules.bestSteps 4 .breadthFirst) (Stepped.successors roundabout) :=
    (Expansion.ofSuccessors_offers _).pushes
  have hends := breadthFirst_known_iff hpushes hfinite ()
  obtain ⟨-, -, hleast, hupto⟩ := (hends.sound 9 e hrun 3 _).mp hknown3
  exact ⟨hfinite, e, hrun, hbest, hknown3, hleast, hupto, hknown4, hknown5⟩

/-- Under either traversal the numbers of steps that go no further than the target
are those of the shortest walks, and each node that near has one, the target apart.
The others are lengths of walks, too, and breadth first there are none. -/
theorem known_upToTarget_iff {expand : Expansion (Stepped Id) Id M}
    (hexpand : expand.Pushes (Rules.bestSteps target traversal) (Stepped.successors neighbors))
    (hfinite : {b | ∃ d, StepWalk neighbors start b d}.Finite) (memory : M) :
    Ends (fun fuel => explore fuel (Rules.bestSteps target traversal) expand memory ⟨start, 0⟩)
      fun e =>
        (∀ v n, UpToTarget neighbors start target n →
          (e.frontier.known v = some ⟨v, n⟩ ↔
            (v ≠ target ∨ v = start) ∧ IsLeast {d | StepWalk neighbors start v d} n)) ∧
        ∀ v s, e.frontier.known v = some s →
          s.id = v ∧ StepWalk neighbors start v s.steps ∧
            (traversal = .breadthFirst → IsLeast {d | StepWalk neighbors start v d} s.steps) where
  isSome := exists_explore_steps rfl rfl hexpand hfinite memory
  sound fuel e hrun := by
    obtain ⟨hf, hqueue⟩ := explore_faithful_of_pushes rfl hexpand hrun
    refine ⟨fun v n hn => ⟨fun hs => ?_, fun ⟨hv, hleast⟩ => ?_⟩, fun v s hs => ?_⟩
    · have hv := ne_target_or_eq_start_of_known hrun hs rfl
      exact ⟨hv, hf.isLeast_of_known hqueue hs hn hv⟩
    · exact hf.known_of_isLeast hqueue hleast hn hv
    · obtain ⟨hid, hwalk⟩ := hf.traced.stepWalk_of_known rfl hs
      refine ⟨hid, hwalk, ?_⟩
      rintro rfl
      obtain ⟨level, hlevel⟩ := explore_onLevel rfl rfl hexpand.advances hrun
      exact hf.isLeast_of_known hqueue hs (hf.upToTarget_of_onLevel hqueue hlevel hs)
        (ne_target_or_eq_start_of_known hrun hs hid)

/-- A graph with two ways from 0 to 4, on which a way to 5 goes on. Of the out-neighbours
of 1, by which the short one leads, the target 6 is the last. -/
def bypass : Nat → List Nat
  | 0 => [1, 2]
  | 1 => [4, 6]
  | 2 => [3]
  | 3 => [4]
  | 4 => [5]
  | _ => []

/-- Depth first, 4 is found by way of 3, and 5 after it. Then 1 is expanded, which
improves 4 and finds the target, so that 4 is stale when its turn comes again. -/
theorem explore_bypass :
    ((explore 9 (Rules.bestSteps 6 .depthFirst) (.ofNeighbors bypass) ()
      (⟨0, 0⟩ : Stepped Nat)).map fun e =>
        (e.visited, e.frontier.best, [4, 5].map e.frontier.known)) =
      some ([⟨0, 0⟩, ⟨2, 1⟩, ⟨3, 2⟩, ⟨4, 3⟩, ⟨5, 4⟩, ⟨1, 1⟩], some ⟨6, 2⟩,
        [some ⟨4, 2⟩, some ⟨5, 4⟩]) := by cbv

theorem known_upToTarget_iff_bypass :
    {b | ∃ d, StepWalk bypass 0 b d}.Finite ∧
      ∃ e : Exploration (Stepped Nat) Nat Unit,
        explore 9 (Rules.bestSteps 6 .depthFirst) (.ofNeighbors bypass) () ⟨0, 0⟩ = some e ∧
          e.visited = [⟨0, 0⟩, ⟨2, 1⟩, ⟨3, 2⟩, ⟨4, 3⟩, ⟨5, 4⟩, ⟨1, 1⟩] ∧
          UpToTarget bypass 0 6 2 ∧ e.frontier.known 4 = some ⟨4, 2⟩ ∧
          IsLeast {d | StepWalk bypass 0 4 d} 2 ∧
          e.frontier.known 5 = some ⟨5, 4⟩ ∧ StepWalk bypass 0 5 4 := by
  have hfinite : {b | ∃ d, StepWalk bypass 0 b d}.Finite :=
    StepWalk.finite_of_closed (List.mem_cons_self : 0 ∈ [0, 1, 2, 3, 4, 5, 6]) (by decide)
  have hupto : UpToTarget bypass 0 6 2 := by
    rintro d ⟨⟨hpos, hwalk⟩, -⟩
    by_contra hlt
    obtain rfl : d = 1 := by omega
    obtain _ | ⟨_ | _, hedge⟩ := hwalk
    exact absurd hedge (by decide)
  obtain ⟨e, hrun, heq⟩ := Option.map_eq_some_iff.mp explore_bypass
  simp only [List.map_cons, List.map_nil, Prod.mk.injEq, List.cons.injEq, and_true] at heq
  obtain ⟨hvisited, -, hknown4, hknown5⟩ := heq
  have hpushes : (Expansion.ofNeighbors bypass : Expansion (Stepped Nat) Nat Unit).Pushes
      (Rules.bestSteps 6 .depthFirst) (Stepped.successors bypass) :=
    (Expansion.ofSuccessors_offers _).pushes
  have hends := known_upToTarget_iff hpushes hfinite ()
  obtain ⟨hnear, hall⟩ := hends.sound 9 e hrun
  exact ⟨hfinite, e, hrun, hvisited, hupto, hknown4, ((hnear 4 2 hupto).mp hknown4).2, hknown5,
    (hall 5 _ hknown5).2.1⟩

theorem depthFirst_steps_not_shortest :
    ∃ e : Exploration (Stepped Nat) Nat Unit,
      explore 9 (Rules.bestSteps 6 .depthFirst) (.ofNeighbors bypass) () ⟨0, 0⟩ = some e ∧
        e.frontier.known 5 = some ⟨5, 4⟩ ∧ StepWalk bypass 0 5 3 ∧
          ¬IsLeast {d | StepWalk bypass 0 5 d} 4 := by
  obtain ⟨e, hrun, heq⟩ := Option.map_eq_some_iff.mp explore_bypass
  simp only [List.map_cons, List.map_nil, Prod.mk.injEq, List.cons.injEq, and_true] at heq
  obtain ⟨-, -, -, hknown⟩ := heq
  -- The way by 1 and 4.
  have hwalk : StepWalk bypass 0 5 3 :=
    ((StepWalk.nil.snoc (b := 0) (c := 1) (by decide)).snoc (c := 4) (by decide)).snoc (by decide)
  exact ⟨e, hrun, hknown, hwalk, fun hleast => absurd (hleast.2 hwalk) (by decide)⟩

end PuzzleKit.Search
