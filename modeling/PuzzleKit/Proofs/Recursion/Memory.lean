import Mathlib.Data.List.Forall2
import PuzzleKit.Proofs.Recursion.Value

/-!
# A memory never changes a value

What an evaluation may rely on, and what it leaves behind, is that the memory
is consistent: a value kept for an identity is the value of every state of that
identity. A hit is then right at once, and a miss comes back from the recursion
with a right value and a consistent memory, to which the value is added. That
the addition is consistent takes the assumption that states of one identity
have one value, and that all of them have one.

Both halves of the promise go through the query of a state. Soundness is an
induction on the fuel, for any query. Termination is an induction along the
dependencies: the questions that are asked with the true answers, which are the
only ones a consistent memory gives, determine how much fuel is enough,
whatever else the memory holds.
-/

namespace PuzzleKit.Recursion

variable {S Id O : Type}

/-- States of one identity have one value. -/
def Rule.Respects (rule : Rule S Id O) : Prop :=
  ∀ s t v w, rule.identity s = rule.identity t →
    Computes rule.query s v → Computes rule.query t w → v = w

/-- It is enough that states of one identity put the same query. -/
theorem Rule.respects_of_query_eq {rule : Rule S Id O}
    (h : ∀ s t, rule.identity s = rule.identity t → rule.query s = rule.query t) :
    rule.Respects := by
  intro s t v w hid hv hw
  refine computes_unique hv ?_
  obtain ⟨fuel, hfuel⟩ := hw
  refine ⟨fuel, ?_⟩
  cases fuel with
  | zero => cases hfuel
  | succ fuel =>
      rw [compute, h s t hid]
      exact hfuel

variable [DecidableEq Id] [Hashable Id]

/-- A value kept for an identity is the value of every state of that identity. -/
def Memory.Consistent (rule : Rule S Id O) (m : Memory S Id O) : Prop :=
  ∀ id value, m.values[id]? = some value →
    ∀ s, rule.identity s = id → Computes rule.query s value

variable {rule : Rule S Id O} {m m' : Memory S Id O}

theorem Memory.consistent_empty : (Memory.empty : Memory S Id O).Consistent rule := by
  intro id value h
  rw [empty, Std.HashMap.getElem?_emptyWithCapacity] at h
  cases h

/-- Keep a value for the identity of a state. -/
def Memory.keep (rule : Rule S Id O) (m : Memory S Id O) (s : S) (value : O) : Memory S Id O :=
  { m with values := m.values.insert (rule.identity s) value }

theorem Memory.Consistent.keep (h : m.Consistent rule)
    (hwf : WellFounded (DependsOn rule.query)) (hrespects : rule.Respects) {s : S} {value : O}
    (hvalue : Computes rule.query s value) : (m.keep rule s value).Consistent rule := by
  intro id v hv t ht
  rw [Memory.keep, Std.HashMap.getElem?_insert] at hv
  split at hv
  · next hid =>
      cases hv
      obtain ⟨w, hw⟩ := exists_computes hwf t
      have hst : rule.identity s = rule.identity t := (beq_iff_eq.mp hid).trans ht.symm
      rw [hrespects s t value w hst hvalue hw]
      exact hw
  · exact h id v hv t ht

/-! ## Questions -/

/-- How a question is answered: from the memory, or else by an evaluation
whose value is kept. -/
def lookUp (rule : Rule S Id O) (fuel : Nat) (s : S) (m : Memory S Id O) :
    Option (O × Memory S Id O) :=
  match m.values[rule.identity s]? with
  | some value => some (value, m)
  | none => do
    let (value, m) ← evaluate rule fuel s m
    return (value, m.keep rule s value)

theorem evaluate_succ (fuel : Nat) (s : S) (m : Memory S Id O) :
    evaluate rule (fuel + 1) s m = (rule.query s).resolve (lookUp rule fuel) (m.begin s) := rfl

theorem lookUp_cases {fuel : Nat} {s : S} {value : O}
    (h : lookUp rule fuel s m = some (value, m')) :
    (m.values[rule.identity s]? = some value ∧ m' = m) ∨
      ∃ m₁, m.values[rule.identity s]? = none ∧ evaluate rule fuel s m = some (value, m₁) ∧
        m' = m₁.keep rule s value := by
  rw [lookUp] at h
  split at h
  · next hhit =>
      cases h
      exact Or.inl ⟨hhit, rfl⟩
  · next hmiss =>
      obtain ⟨⟨v, m₁⟩, heval, hreturn⟩ := Option.bind_eq_some_iff.mp h
      cases hreturn
      exact Or.inr ⟨m₁, hmiss, heval, rfl⟩

theorem lookUp_isSome {fuel : Nat} {s : S} (h : (evaluate rule fuel s m).isSome) :
    (lookUp rule fuel s m).isSome := by
  rw [lookUp]
  split
  · rfl
  · obtain ⟨⟨value, m₁⟩, heval⟩ := Option.isSome_iff_exists.mp h
    rw [heval]
    rfl

/-- If every answer is right and keeps `P`, so does the query. -/
theorem Query.resolve_yields {P : Memory S Id O → Prop} {answers : S → O → Prop}
    {answer : S → Memory S Id O → Option (O × Memory S Id O)}
    (hanswer : ∀ s m value m', P m → answer s m = some (value, m') → answers s value ∧ P m')
    (q : Query S O) {m : Memory S Id O} {value : O} {m' : Memory S Id O} (hm : P m)
    (h : q.resolve answer m = some (value, m')) : q.Yields answers value ∧ P m' := by
  induction q generalizing m with
  | answer v =>
      cases h
      exact ⟨.answer value, hm⟩
  | ask s next ih =>
      obtain ⟨⟨v, m₁⟩, hv, hnext⟩ := Option.bind_eq_some_iff.mp h
      obtain ⟨hright, hm₁⟩ := hanswer s m v m₁ hm hv
      obtain ⟨hyields, hm'⟩ := ih v hm₁ hnext
      exact ⟨.ask hright hyields, hm'⟩

/-- If every question that is asked with the right answers is answered, and
rightly, then the query comes to an end. -/
theorem Query.resolve_isSome {P : Memory S Id O → Prop} {answers : S → O → Prop}
    {answer : S → Memory S Id O → Option (O × Memory S Id O)}
    (hanswer : ∀ s m value m', P m → answer s m = some (value, m') → answers s value ∧ P m')
    (q : Query S O) (hends : ∀ s, q.Asks answers s → ∀ m, P m → (answer s m).isSome)
    {m : Memory S Id O} (hm : P m) : (q.resolve answer m).isSome := by
  induction q generalizing m with
  | answer v => rfl
  | ask s next ih =>
      obtain ⟨⟨v, m₁⟩, hv⟩ := Option.isSome_iff_exists.mp (hends s (.now s next) m hm)
      obtain ⟨hright, hm₁⟩ := hanswer s m v m₁ hm hv
      rw [Query.resolve, hv]
      exact ih v (fun t ht => hends t (.later hright ht)) hm₁

/-- Of finitely many questions asked with the right answers, each with a bound
of its own, all share a bound. -/
theorem Query.exists_bound {answers : S → O → Prop} {Enough : S → Nat → Prop} (q : Query S O)
    (h : ∀ s, q.Asks answers s → ∃ bound, ∀ fuel, bound ≤ fuel → Enough s fuel)
    (hunique : ∀ s v w, answers s v → answers s w → v = w) :
    ∃ bound, ∀ s, q.Asks answers s → ∀ fuel, bound ≤ fuel → Enough s fuel := by
  induction q with
  | answer v => exact ⟨0, fun s hs => by cases hs⟩
  | ask s next ih =>
      obtain ⟨n, hn⟩ := h s (.now s next)
      -- There is one right answer at most, so one way in which the query goes on.
      by_cases hanswered : ∃ v, answers s v
      · obtain ⟨v, hv⟩ := hanswered
        obtain ⟨k, hk⟩ := ih v fun t ht => h t (.later hv ht)
        refine ⟨max n k, fun t ht fuel hfuel => ?_⟩
        cases ht with
        | now => exact hn fuel (Nat.le_trans (Nat.le_max_left n k) hfuel)
        | later hw ht =>
            rw [hunique s _ v hw hv] at ht
            exact hk t ht fuel (Nat.le_trans (Nat.le_max_right n k) hfuel)
      · refine ⟨n, fun t ht => ?_⟩
        cases ht with
        | now => exact hn
        | later hw _ => exact absurd ⟨_, hw⟩ hanswered

/-! ## Evaluations -/

section Evaluate

variable (hwf : WellFounded (DependsOn rule.query)) (hrespects : rule.Respects)

include hwf hrespects

theorem lookUp_sound {fuel : Nat}
    (heval : ∀ s m value m', m.Consistent rule → evaluate rule fuel s m = some (value, m') →
      Computes rule.query s value ∧ m'.Consistent rule) (s : S) (m : Memory S Id O) (value : O)
    (m' : Memory S Id O) (hm : m.Consistent rule) (h : lookUp rule fuel s m = some (value, m')) :
    Computes rule.query s value ∧ m'.Consistent rule := by
  rcases lookUp_cases h with ⟨hhit, rfl⟩ | ⟨m₁, -, hmiss, rfl⟩
  · exact ⟨hm _ value hhit s rfl, hm⟩
  · obtain ⟨hvalue, hm₁⟩ := heval s m value m₁ hm hmiss
    exact ⟨hvalue, hm₁.keep hwf hrespects hvalue⟩

/-- An evaluation gives the value of its state and keeps the memory consistent. -/
theorem evaluate_sound (fuel : Nat) (s : S) (m : Memory S Id O) (value : O)
    (m' : Memory S Id O) (hm : m.Consistent rule)
    (h : evaluate rule fuel s m = some (value, m')) :
    Computes rule.query s value ∧ m'.Consistent rule := by
  induction fuel generalizing s m value m' with
  | zero => cases h
  | succ fuel ih =>
      rw [evaluate_succ] at h
      obtain ⟨hyields, hm'⟩ := Query.resolve_yields (P := Memory.Consistent rule)
        (lookUp_sound hwf hrespects ih) (rule.query s) (m := m.begin s) hm h
      exact ⟨computes_of_yields hyields, hm'⟩

/-- How deep the questions of a state nest does not depend on the memory. -/
theorem evaluate_isSome (s : S) :
    ∃ bound, ∀ fuel, bound ≤ fuel → ∀ m : Memory S Id O, m.Consistent rule →
      (evaluate rule fuel s m).isSome := by
  induction s using hwf.induction with
  | _ s ih =>
      have hshared : ∃ bound, ∀ t, (rule.query s).Asks (Computes rule.query) t →
          ∀ fuel, bound ≤ fuel → ∀ m : Memory S Id O, m.Consistent rule →
            (evaluate rule fuel t m).isSome :=
        (rule.query s).exists_bound ih fun _ _ _ => computes_unique
      obtain ⟨bound, hbound⟩ := hshared
      -- A consistent memory gives true answers only, so the questions are the
      -- same for all of them and one bound serves.
      refine ⟨bound + 1, fun fuel hfuel m hm => ?_⟩
      obtain ⟨fuel, rfl⟩ : ∃ k, fuel = k + 1 := ⟨fuel - 1, by omega⟩
      rw [evaluate_succ]
      refine Query.resolve_isSome (P := Memory.Consistent rule)
        (lookUp_sound hwf hrespects (evaluate_sound hwf hrespects fuel)) (rule.query s) ?_
        (m := m.begin s) hm
      exact fun t ht m hm => lookUp_isSome (hbound t ht fuel (by omega) m hm)

/-- Evaluations in turn give the values of their states, and each of them
leaves a consistent memory. -/
theorem evaluateAll_sound (fuel : Nat) (starts : List S) (m : Memory S Id O)
    (evaluations : List (Evaluation S Id O)) (hm : m.Consistent rule)
    (h : evaluateAll rule fuel starts m = some evaluations) :
    List.Forall₂ (fun s (evaluation : Evaluation S Id O) =>
      Computes rule.query s evaluation.value ∧ evaluation.memory.Consistent rule)
      starts evaluations := by
  induction starts generalizing m evaluations with
  | nil =>
      cases h
      exact .nil
  | cons s starts ih =>
      obtain ⟨⟨value, after⟩, heval, hrest⟩ := Option.bind_eq_some_iff.mp h
      obtain ⟨rest, htail, hreturn⟩ := Option.bind_eq_some_iff.mp hrest
      cases hreturn
      obtain ⟨hvalue, hafter⟩ := evaluate_sound hwf hrespects fuel s m value after hm heval
      exact .cons ⟨hvalue, hafter⟩ (ih after rest hafter htail)

theorem evaluateAll_isSome (starts : List S) :
    ∃ bound, ∀ fuel, bound ≤ fuel → ∀ m : Memory S Id O, m.Consistent rule →
      (evaluateAll rule fuel starts m).isSome := by
  induction starts with
  | nil => exact ⟨0, fun _ _ _ _ => rfl⟩
  | cons s starts ih =>
      obtain ⟨n, hn⟩ := evaluate_isSome hwf hrespects s
      obtain ⟨k, hk⟩ := ih
      refine ⟨max n k, fun fuel hfuel m hm => ?_⟩
      obtain ⟨⟨value, after⟩, heval⟩ := Option.isSome_iff_exists.mp
        (hn fuel (Nat.le_trans (Nat.le_max_left n k) hfuel) m hm)
      obtain ⟨-, hafter⟩ := evaluate_sound hwf hrespects fuel s m value after hm heval
      obtain ⟨rest, hrest⟩ := Option.isSome_iff_exists.mp
        (hk fuel (Nat.le_trans (Nat.le_max_right n k) hfuel) after hafter)
      rw [evaluateAll, heval]
      simp [hrest]

theorem evaluateFresh_ends (s : S) :
    Ends (fun fuel => evaluateFresh rule fuel s) fun r => Computes rule.query s r.1 where
  isSome := by
    obtain ⟨bound, hbound⟩ := evaluate_isSome hwf hrespects s
    exact ⟨bound, fun fuel hfuel => hbound fuel hfuel Memory.empty Memory.consistent_empty⟩
  sound fuel r h :=
    (evaluate_sound hwf hrespects fuel s Memory.empty r.1 r.2 Memory.consistent_empty h).1

end Evaluate

/-- A memory does not change values. However many states are evaluated in turn
with one memory, each evaluation ends with the value that the plain recursion
gives to its state, and with a memory that is consistent with it; and so does
an evaluation from scratch, whether states are told apart by the identity of
the rule or by themselves. -/
theorem memory_keeps_values (hwf : WellFounded (DependsOn rule.query))
    (hrespects : rule.Respects) :
    (∀ starts, Ends (fun fuel => evaluateAll rule fuel starts Memory.empty) fun evaluations =>
      List.Forall₂ (fun s (evaluation : Evaluation S Id O) =>
        Computes rule.query s evaluation.value ∧ evaluation.memory.Consistent rule)
        starts evaluations) ∧
      (∀ s, Ends (fun fuel => evaluateFresh rule fuel s) fun r => Computes rule.query s r.1) ∧
      ∀ [DecidableEq S] [Hashable S], ∀ s,
        Ends (fun fuel => evaluateFresh (⟨id, rule.query⟩ : Rule S S O) fuel s)
          fun r => Computes rule.query s r.1 := by
  refine ⟨fun starts => ⟨?_, fun fuel evaluations h => ?_⟩, evaluateFresh_ends hwf hrespects, ?_⟩
  · obtain ⟨bound, hbound⟩ := evaluateAll_isSome hwf hrespects starts
    exact ⟨bound, fun fuel hfuel => hbound fuel hfuel Memory.empty Memory.consistent_empty⟩
  · exact evaluateAll_sound hwf hrespects fuel starts Memory.empty evaluations
      Memory.consistent_empty h
  · intro _ _ s
    have hown : (⟨id, rule.query⟩ : Rule S S O).Respects :=
      Rule.respects_of_query_eq fun t u htu => congrArg rule.query htu
    have hwf : WellFounded (DependsOn (⟨id, rule.query⟩ : Rule S S O).query) := hwf
    exact evaluateFresh_ends hwf hown s

/-- Questions to the integer below in absolute value, by way of the negative
one, and where its answer is odd also to the half. -/
def descentQuery : Nat → Query Int Nat
  | 0 => .answer 0
  | n + 1 => .ask (-n) fun v =>
    if v % 2 = 0 then .answer (v + 1) else .ask (n / 2 : Nat) fun w => .answer (v + w)

/-- An integer and its negative share what is kept for them. -/
def descent : Rule Int Nat Nat := ⟨Int.natAbs, fun z => descentQuery z.natAbs⟩

theorem natAbs_lt_of_asks {answers : Int → Nat → Prop} {n : Nat} {t : Int}
    (h : (descentQuery n).Asks answers t) : t.natAbs < n := by
  cases n with
  | zero => cases h
  | succ n =>
      cases h with
      | now => omega
      | later _ h =>
          simp only [] at h
          split at h
          · cases h
          · cases h with
            | now => omega
            | later _ h => cases h

theorem memory_keeps_values_descent : ∃ evaluations,
    evaluateAll descent 6 [4, -4, 5] Memory.empty = some evaluations ∧
      evaluations.map Evaluation.value = [3, 3, 4] ∧
      List.Forall₂ (fun s (evaluation : Evaluation Int Nat Nat) =>
        Computes descent.query s evaluation.value ∧ evaluation.memory.Consistent descent)
        [4, -4, 5] evaluations := by
  have hwf : WellFounded (DependsOn descent.query) :=
    Subrelation.wf natAbs_lt_of_asks (measure Int.natAbs).wf
  have hrespects : descent.Respects :=
    Rule.respects_of_query_eq fun s t hid => congrArg descentQuery hid
  have hvalues : (evaluateAll descent 6 [4, -4, 5] Memory.empty).map
      (List.map Evaluation.value) = some [3, 3, 4] := by cbv
  obtain ⟨evaluations, hrun, hmap⟩ := Option.map_eq_some_iff.mp hvalues
  exact ⟨evaluations, hrun, hmap,
    ((memory_keeps_values hwf hrespects).1 [4, -4, 5]).sound 6 evaluations hrun⟩

end PuzzleKit.Recursion
