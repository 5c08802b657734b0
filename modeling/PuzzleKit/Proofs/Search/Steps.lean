import PuzzleKit.Proofs.Search.Termination

/-!
# Steps are the edges of walks

A search by steps goes over a directed graph. It pushes the out-neighbours of a
node with one step more, and of two states at one node the one with fewer steps
is better. What it reaches are then the walks from the start, a node together
with the number of edges of a walk there.

Such a search has all that is asked of a search under a comparison. Two states
at one node push the same nodes, so the better one stays ahead; a push only ever
adds a step, so a state is a bound for what follows it; and the number of steps
is itself the room for improvement, because it cannot fall below zero.
-/

namespace PuzzleKit.Search

variable {Id : Type} {neighbors : Id → List Id} {start : Id}

/-- A walk with so many edges leads from one node to another. -/
inductive StepWalk (neighbors : Id → List Id) (a : Id) : Id → Nat → Prop
  | nil : StepWalk neighbors a a 0
  | snoc {b c : Id} {d : Nat} (walk : StepWalk neighbors a b d) (edge : c ∈ neighbors b) :
      StepWalk neighbors a c (d + 1)

/-- A walk between two nodes that differ has an edge. -/
theorem StepWalk.pos {a b : Id} {d : Nat} (h : StepWalk neighbors a b d) (hne : a ≠ b) :
    0 < d := by
  cases h with
  | nil => exact absurd rfl hne
  | snoc _ _ => exact Nat.succ_pos _

/-- The start reaches finitely many nodes if a list of nodes with the start has all
that its nodes lead to. -/
theorem StepWalk.finite_of_closed {nodes : List Id} (hstart : start ∈ nodes)
    (hclosed : ∀ b ∈ nodes, ∀ c ∈ neighbors b, c ∈ nodes) :
    {b | ∃ d, StepWalk neighbors start b d}.Finite := by
  refine nodes.finite_toSet.subset ?_
  rintro b ⟨d, hwalk⟩
  induction hwalk with
  | nil => exact hstart
  | snoc _ hedge ih => exact hclosed _ ih _ hedge

namespace Stepped

variable {s t : Stepped Id}

theorem mem_successors :
    t ∈ successors neighbors s ↔ t.id ∈ neighbors s.id ∧ t.steps = s.steps + 1 := by
  constructor
  · intro h
    obtain ⟨id, hid, rfl⟩ := List.mem_map.mp h
    exact ⟨hid, rfl⟩
  · rintro ⟨hid, hsteps⟩
    refine List.mem_map.mpr ⟨t.id, hid, ?_⟩
    rw [← hsteps]

theorem reaches_iff_stepWalk :
    Reaches (successors neighbors) ⟨start, 0⟩ s ↔ StepWalk neighbors start s.id s.steps := by
  constructor
  · intro h
    induction h with
    | refl => exact .nil
    | tail _ hmem ih =>
        obtain ⟨hid, hsteps⟩ := mem_successors.mp hmem
        rw [hsteps]
        exact ih.snoc hid
  · have hwalk : ∀ {b d}, StepWalk neighbors start b d →
        Reaches (successors neighbors) ⟨start, 0⟩ ⟨b, d⟩ := by
      intro b d h
      induction h with
      | nil => exact .refl
      | snoc _ hedge ih => exact ih.tail (mem_successors.mpr ⟨hedge, rfl⟩)
    exact hwalk

theorem leads_iff_stepWalk :
    Leads (successors neighbors) ⟨start, 0⟩ s ↔
      0 < s.steps ∧ StepWalk neighbors start s.id s.steps := by
  constructor
  · intro h
    obtain ⟨r, -, hmem⟩ := Relation.TransGen.tail'_iff.mp h
    have hsteps := (mem_successors.mp hmem).2
    exact ⟨by omega, reaches_iff_stepWalk.mp h.to_reflTransGen⟩
  · rintro ⟨hpos, hwalk⟩
    rcases Relation.reflTransGen_iff_eq_or_transGen.mp (reaches_iff_stepWalk.mpr hwalk) with
      heq | hleads
    · rw [heq] at hpos
      exact absurd hpos (Nat.lt_irrefl 0)
    · exact hleads

/-! ## Comparing by steps -/

instance : Std.TransCmp (@Stepped.compare Id) :=
  inferInstanceAs (Std.TransCmp (compareOn Stepped.steps))

theorem isLE_compare : (Stepped.compare s t).isLE ↔ s.steps ≤ t.steps := Nat.isLE_compare

theorem compare_eq_lt : Stepped.compare s t = .lt ↔ s.steps < t.steps := Nat.compare_eq_lt

theorem dominates_compare (neighbors : Id → List Id) :
    Dominates Stepped.id Stepped.compare (successors neighbors) := by
  intro a b hid hle b' hb'
  obtain ⟨hedge, hsteps⟩ := mem_successors.mp hb'
  refine ⟨⟨b'.id, a.steps + 1⟩, mem_successors.mpr ⟨hid ▸ hedge, rfl⟩, rfl, ?_⟩
  rw [isLE_compare] at hle ⊢
  rw [hsteps]
  exact Nat.succ_le_succ hle

theorem bounds_compare (neighbors : Id → List Id) (target : Id) :
    Bounds Stepped.id Stepped.compare target (successors neighbors) := by
  refine bounds_of_push_isLE fun s t hmem => ?_
  rw [isLE_compare, (mem_successors.mp hmem).2]
  exact Nat.le_succ s.steps

theorem descends_steps (rules : Rules (Stepped Id) Id) (neighbors : Id → List Id)
    (s : Stepped Id) :
    Descends rules Stepped.compare (successors neighbors) s Stepped.steps :=
  fun _ _ _ _ _ hlt => compare_eq_lt.mp hlt

end Stepped

variable [DecidableEq Id] [Hashable Id]

theorem Frontier.Traced.stepWalk_of_known {rules : Rules (Stepped Id) Id}
    {f : Frontier (Stepped Id) Id} (hf : f.Traced rules (Stepped.successors neighbors) ⟨start, 0⟩)
    (hidentity : rules.identity = Stepped.id) {v : Id} {s : Stepped Id}
    (hs : f.known v = some s) : s.id = v ∧ StepWalk neighbors start v s.steps := by
  have hid : s.id = v := hidentity ▸ hf.identity v s hs
  exact ⟨hid, hid ▸ Stepped.reaches_iff_stepWalk.mp (hf.known v s hs)⟩

/-- A search by steps ends if the start reaches finitely many nodes. -/
theorem exists_explore_steps {M : Type}
    {rules : Rules (Stepped Id) Id} (hadmission : rules.admission = .improving Stepped.compare)
    (hidentity : rules.identity = Stepped.id) {expand : Expansion (Stepped Id) Id M}
    (hexpand : expand.Pushes rules (Stepped.successors neighbors))
    (hfinite : {b | ∃ d, StepWalk neighbors start b d}.Finite) (memory : M) :
    ∃ bound, ∀ fuel, bound ≤ fuel → (explore fuel rules expand memory ⟨start, 0⟩).isSome := by
  refine explore_isSome_of_pushes hadmission hexpand
    (Stepped.descends_steps rules neighbors ⟨start, 0⟩) (hfinite.subset ?_) memory
  rintro b ⟨s, hs, rfl⟩
  rw [hidentity]
  exact ⟨s.steps, Stepped.reaches_iff_stepWalk.mp hs⟩

end PuzzleKit.Search
