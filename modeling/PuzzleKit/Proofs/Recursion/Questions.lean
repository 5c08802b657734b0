import Mathlib.Algebra.Order.Group.Multiset
import Mathlib.Logic.Relation
import Mathlib.Tactic.Abel
import PuzzleKit.Proofs.Recursion.Memory

/-!
# Each identity is computed once

An evaluation that also lists its questions (`evaluateAsking`) is the evaluation
as it is, with a list beside it. What the questions do to a memory is the balance
of `Accounts`: the identities asked for are those that are kept on top of what was
kept before, and those among them that had to be computed are different from one
another and new, so the memory grows by just their number. Balances add up, from
one question to the next and from one evaluation to the next.

What could spoil a balance is a state that is asked for while its own identity is
being computed. It would not be found, and be computed a second time. That is
ruled out if no identity depends on itself: all the questions under way have the
identity that they are asked for below them. The answers are the true values, since
the memory is consistent, so the dependencies are those of the plain recursion.
-/

namespace PuzzleKit.Recursion

variable {S Id O : Type}

/-- A question that was put: the state, and whether its value was computed for it
or was there already. -/
structure Question (S : Type) where
  state : S
  computed : Bool
deriving DecidableEq

/-- The states that were computed for a question. -/
def computed (asked : List (Question S)) : List S :=
  (asked.filter Question.computed).map Question.state

theorem computed_append (asked rest : List (Question S)) :
    computed (asked ++ rest) = computed asked ++ computed rest := by
  simp [computed]

/-- The value of some state of identity `i` is computed from that of some state of
identity `j`. -/
def Rule.Needs (rule : Rule S Id O) (j i : Id) : Prop :=
  ∃ t s, DependsOn rule.query t s ∧ rule.identity t = j ∧ rule.identity s = i

/-- No identity depends on itself, however far around. -/
def Rule.Acyclic (rule : Rule S Id O) : Prop := ∀ i, ¬Relation.TransGen rule.Needs i i

variable [DecidableEq Id] [Hashable Id]

/-! ## Evaluations that list their questions -/

/-- Carry out a computation, given what answers its questions. -/
def Query.resolveAsking
    (answer : S → Memory S Id O → Option (O × Memory S Id O × List (Question S))) :
    Query S O → Memory S Id O → Option (O × Memory S Id O × List (Question S))
  | .answer value, m => some (value, m, [])
  | .ask s next, m => do
    let (value, m, asked) ← answer s m
    let (value, m, rest) ← (next value).resolveAsking answer m
    return (value, m, asked ++ rest)

/-- Answer a question from the memory, or else by an evaluation whose value is kept,
and list the question with those that it leads to. -/
def lookUpAsking (rule : Rule S Id O)
    (evaluate : S → Memory S Id O → Option (O × Memory S Id O × List (Question S))) (s : S)
    (m : Memory S Id O) : Option (O × Memory S Id O × List (Question S)) :=
  match m.values[rule.identity s]? with
  | some value => some (value, m, [⟨s, false⟩])
  | none => do
    let (value, m, asked) ← evaluate s m
    return (value, m.keep rule s value, ⟨s, true⟩ :: asked)

/-- Compute the value of a state, and list the questions put for it. -/
def evaluateAsking (rule : Rule S Id O) :
    Nat → S → Memory S Id O → Option (O × Memory S Id O × List (Question S))
  | 0, _, _ => none
  | fuel + 1, s, m =>
    (rule.query s).resolveAsking (lookUpAsking rule (evaluateAsking rule fuel)) (m.begin s)

/-- Compute the values of several states in turn with one memory, and list the
questions put for all of them. -/
def evaluateAllAsking (rule : Rule S Id O) (fuel : Nat) :
    List S → Memory S Id O → Option (Memory S Id O × List (Question S))
  | [], m => some (m, [])
  | s :: states, m => do
    let (_, after, asked) ← evaluateAsking rule fuel s m
    let (last, rest) ← evaluateAllAsking rule fuel states after
    return (last, asked ++ rest)

variable {rule : Rule S Id O} {fuel : Nat} {m m' m'' : Memory S Id O}

theorem lookUpAsking_cases
    {evaluate : S → Memory S Id O → Option (O × Memory S Id O × List (Question S))} {s : S}
    {value : O} {asked : List (Question S)}
    (h : lookUpAsking rule evaluate s m = some (value, m', asked)) :
    (m.values[rule.identity s]? = some value ∧ m' = m ∧ asked = [⟨s, false⟩]) ∨
      ∃ m₁ nested, m.values[rule.identity s]? = none ∧
        evaluate s m = some (value, m₁, nested) ∧
        m' = m₁.keep rule s value ∧ asked = ⟨s, true⟩ :: nested := by
  rw [lookUpAsking] at h
  split at h
  · next hhit =>
      cases h
      exact Or.inl ⟨hhit, rfl, rfl⟩
  · next hmiss =>
      obtain ⟨⟨v, m₁, nested⟩, heval, hreturn⟩ := Option.bind_eq_some_iff.mp h
      cases hreturn
      exact Or.inr ⟨m₁, nested, hmiss, heval, rfl, rfl⟩

/-! ## The list changes nothing -/

def forget (r : O × Memory S Id O × List (Question S)) : O × Memory S Id O := (r.1, r.2.1)

theorem Query.map_resolveAsking
    {answer : S → Memory S Id O → Option (O × Memory S Id O × List (Question S))}
    {answer' : S → Memory S Id O → Option (O × Memory S Id O)}
    (hanswer : ∀ s m, (answer s m).map forget = answer' s m) (q : Query S O)
    (m : Memory S Id O) : (q.resolveAsking answer m).map forget = q.resolve answer' m := by
  induction q generalizing m with
  | answer value => rfl
  | ask s next ih =>
      rw [resolveAsking, resolve, ← hanswer]
      cases answer s m with
      | none => rfl
      | some r =>
          obtain ⟨v, m₁, asked⟩ := r
          have hnext := ih v m₁
          simp only [Option.bind_eq_bind, Option.bind_some, Option.map_some, forget, ← hnext]
          cases (next v).resolveAsking answer m₁ <;> rfl

theorem map_lookUpAsking
    (heval : ∀ s m, (evaluateAsking rule fuel s m).map forget = evaluate rule fuel s m) (s : S)
    (m : Memory S Id O) :
    (lookUpAsking rule (evaluateAsking rule fuel) s m).map forget = lookUp rule fuel s m := by
  rw [lookUpAsking, lookUp, ← heval]
  cases m.values[rule.identity s]? with
  | some value => rfl
  | none => cases evaluateAsking rule fuel s m <;> rfl

theorem map_evaluateAsking (fuel : Nat) (s : S) (m : Memory S Id O) :
    (evaluateAsking rule fuel s m).map forget = evaluate rule fuel s m := by
  induction fuel generalizing s m with
  | zero => rfl
  | succ fuel ih =>
      rw [evaluateAsking, evaluate_succ]
      exact Query.map_resolveAsking (map_lookUpAsking ih) _ _

theorem evaluate_of_evaluateAsking {s : S} {value : O} {asked : List (Question S)}
    (h : evaluateAsking rule fuel s m = some (value, m', asked)) :
    evaluate rule fuel s m = some (value, m') := by
  rw [← map_evaluateAsking, h]
  rfl

theorem map_evaluateAllAsking (fuel : Nat) (states : List S) (m : Memory S Id O) :
    (evaluateAllAsking rule fuel states m).map Prod.fst =
      (evaluateAll rule fuel states m).map fun evaluations =>
        (evaluations.map Evaluation.memory).getLastD m := by
  induction states generalizing m with
  | nil => rfl
  | cons s states ih =>
      rw [evaluateAllAsking, evaluateAll, ← map_evaluateAsking]
      cases evaluateAsking rule fuel s m with
      | none => rfl
      | some r =>
          obtain ⟨value, after, asked⟩ := r
          have hrest := ih after
          simp only [Option.bind_eq_bind, Option.bind_some, Option.map_some, forget]
          cases hall : evaluateAll rule fuel states after with
          | none =>
              rw [hall] at hrest
              rw [Option.map_eq_none_iff.mp hrest]
              rfl
          | some evaluations =>
              rw [hall] at hrest
              obtain ⟨⟨last, rest⟩, hasking, rfl⟩ := Option.map_eq_some_iff.mp hrest
              rw [hasking]
              simp only [Option.bind_some, Option.pure_def, Option.map_some, List.map_cons,
                List.getLastD_cons]

/-! ## Balances -/

/-- What the questions of some evaluations do to a memory. -/
structure Accounts (rule : Rule S Id O) (started : List S) (m m' : Memory S Id O)
    (asked : List (Question S)) : Prop where
  kept : ∀ id, id ∈ m'.values ↔ id ∈ m.values ∨ ∃ q ∈ asked, rule.identity q.state = id
  fresh : ∀ s ∈ computed asked, rule.identity s ∉ m.values
  once : ((computed asked).map rule.identity).Nodup
  size : m'.size = m.size + (computed asked).length
  begun : (m'.history.map Call.state).Perm
    (started ++ computed asked ++ m.history.map Call.state)

section Accounts

variable {started started' : List S} {asked rest : List (Question S)} {s : S}

theorem exists_question_of_mem_computed (h : s ∈ computed asked) :
    ∃ q ∈ asked, q.state = s := by
  obtain ⟨q, hq, rfl⟩ := List.mem_map.mp h
  exact ⟨q, List.mem_of_mem_filter hq, rfl⟩

theorem Accounts.nil : Accounts rule [] m m [] where
  kept := by simp
  fresh := by simp [computed]
  once := .nil
  size := rfl
  begun := .refl _

theorem Accounts.append (h : Accounts rule started m m' asked)
    (h' : Accounts rule started' m' m'' rest) :
    Accounts rule (started ++ started') m m'' (asked ++ rest) where
  kept id := by
    rw [h'.kept, h.kept]
    simp only [List.mem_append, or_and_right, exists_or, or_assoc]
  fresh s hs := by
    rw [computed_append] at hs
    rcases List.mem_append.mp hs with hs | hs
    · exact h.fresh s hs
    · intro hmem
      exact h'.fresh s hs ((h.kept _).mpr (Or.inl hmem))
  once := by
    rw [computed_append, List.map_append]
    refine List.nodup_append.mpr ⟨h.once, h'.once, ?_⟩
    rintro _ hid _ hid' rfl
    obtain ⟨s, hs, hid⟩ := List.mem_map.mp hid
    obtain ⟨t, ht, hid'⟩ := List.mem_map.mp hid'
    obtain ⟨q, hq, rfl⟩ := exists_question_of_mem_computed hs
    exact h'.fresh t ht ((h.kept _).mpr (Or.inr ⟨q, hq, hid.trans hid'.symm⟩))
  size := by
    rw [h'.size, h.size, computed_append, List.length_append]
    omega
  begun := by
    refine h'.begun.trans ((h.begun.append_left _).trans ?_)
    rw [computed_append, ← Multiset.coe_eq_coe]
    simp only [← Multiset.coe_add]
    abel

theorem Accounts.begin (h : Accounts rule [] (m.begin s) m' asked) :
    Accounts rule [s] m m' asked where
  kept := h.kept
  fresh := h.fresh
  once := h.once
  size := h.size
  begun := h.begun.trans List.perm_middle

theorem Accounts.found (hhit : rule.identity s ∈ m.values) :
    Accounts rule [] m m [⟨s, false⟩] where
  kept id := by
    simp only [List.mem_singleton, exists_eq_left, iff_self_or]
    rintro rfl
    exact hhit
  fresh := by simp [computed]
  once := .nil
  size := rfl
  begun := .refl _

theorem Accounts.keep (h : Accounts rule [s] m m' asked) (hmiss : rule.identity s ∉ m.values)
    (hself : ∀ q ∈ asked, rule.identity q.state ≠ rule.identity s) (value : O) :
    Accounts rule [] m (m'.keep rule s value) (⟨s, true⟩ :: asked) where
  kept id := by
    rw [Memory.keep, Std.HashMap.mem_insert, h.kept]
    simp
    tauto
  fresh t ht := by
    rcases List.mem_cons.mp ht with rfl | ht
    · exact hmiss
    · exact h.fresh t ht
  once := by
    refine List.nodup_cons.mpr ⟨fun hmem => ?_, h.once⟩
    obtain ⟨t, ht, hid⟩ := List.mem_map.mp hmem
    obtain ⟨q, hq, rfl⟩ := exists_question_of_mem_computed ht
    exact hself q hq hid
  size := by
    have hnew : rule.identity s ∉ m'.values := by
      rw [h.kept]
      rintro (hmem | ⟨q, hq, hid⟩)
      · exact hmiss hmem
      · exact hself q hq hid
    rw [Memory.size, Memory.keep, Std.HashMap.size_insert, if_neg hnew, ← Memory.size, h.size]
    rfl
  begun := h.begun

end Accounts

/-! ## Evaluations are in balance -/

/-- If every question that is asked with the right answers is in balance, so are
all of them together. -/
theorem Query.accounts_resolveAsking {P : Memory S Id O → Prop} {answers : S → O → Prop}
    {B : S → Prop} {answer : S → Memory S Id O → Option (O × Memory S Id O × List (Question S))}
    (q : Query S O)
    (hanswer : ∀ s, q.Asks answers s → ∀ m value m' asked, P m →
      answer s m = some (value, m', asked) → (answers s value ∧ P m') ∧
        Accounts rule [] m m' asked ∧ ∀ x ∈ asked, B x.state)
    {value : O} {asked : List (Question S)} (hm : P m)
    (h : q.resolveAsking answer m = some (value, m', asked)) :
    Accounts rule [] m m' asked ∧ ∀ x ∈ asked, B x.state := by
  induction q generalizing m asked with
  | answer v =>
      cases h
      exact ⟨.nil, by simp⟩
  | ask s next ih =>
      obtain ⟨⟨v, m₁, first⟩, hv, h⟩ := Option.bind_eq_some_iff.mp h
      obtain ⟨⟨w, m₂, rest⟩, hnext, hreturn⟩ := Option.bind_eq_some_iff.mp h
      cases hreturn
      obtain ⟨⟨hright, hm₁⟩, hfirst, hB⟩ := hanswer s (.now s next) m v m₁ first hm hv
      obtain ⟨hrest, hB'⟩ := ih v (fun t ht => hanswer t (.later hright ht)) hm₁ hnext
      exact ⟨hfirst.append hrest, List.forall_mem_append.mpr ⟨hB, hB'⟩⟩

section Evaluate

variable (hwf : WellFounded (DependsOn rule.query)) (hrespects : rule.Respects)
  (hacyclic : rule.Acyclic)

include hacyclic in
theorem lookUpAsking_accounts {s : S} {value : O} {asked : List (Question S)}
    (heval : ∀ m₁ nested, evaluateAsking rule fuel s m = some (value, m₁, nested) →
      Accounts rule [s] m m₁ nested ∧
        ∀ q ∈ nested, Relation.TransGen rule.Needs (rule.identity q.state) (rule.identity s))
    (h : lookUpAsking rule (evaluateAsking rule fuel) s m = some (value, m', asked)) :
    Accounts rule [] m m' asked ∧
      ∀ q ∈ asked, Relation.ReflTransGen rule.Needs (rule.identity q.state) (rule.identity s) := by
  rcases lookUpAsking_cases h with ⟨hhit, rfl, rfl⟩ | ⟨m₁, nested, hmiss, hnested, rfl, rfl⟩
  · refine ⟨.found (Std.HashMap.isSome_getElem?_iff_mem.mp (by rw [hhit]; rfl)), fun q hq => ?_⟩
    rw [List.mem_singleton.mp hq]
  · obtain ⟨hbalance, hbelow⟩ := heval m₁ nested hnested
    -- An identity asked for while it is computed would depend on itself.
    have hself : ∀ q ∈ nested, rule.identity q.state ≠ rule.identity s := by
      intro q hq hid
      exact hacyclic _ (hid ▸ hbelow q hq)
    refine ⟨hbalance.keep ((getElem?_eq_none_iff _ _).mp hmiss) hself value,
      List.forall_mem_cons.mpr ⟨.refl, fun q hq => (hbelow q hq).to_reflTransGen⟩⟩

include hwf hrespects hacyclic

/-- The identities asked for in an evaluation are those that its state depends on. -/
theorem evaluateAsking_accounts (fuel : Nat) (s : S) (m : Memory S Id O) (value : O)
    (m' : Memory S Id O) (asked : List (Question S)) (hm : m.Consistent rule)
    (h : evaluateAsking rule fuel s m = some (value, m', asked)) :
    Accounts rule [s] m m' asked ∧
      ∀ q ∈ asked, Relation.TransGen rule.Needs (rule.identity q.state) (rule.identity s) := by
  induction fuel generalizing s m value m' asked with
  | zero => cases h
  | succ fuel ih =>
      rw [evaluateAsking] at h
      -- The query starts from the memory in which the state has begun already.
      suffices hquery : Accounts rule [] (m.begin s) m' asked ∧
          ∀ q ∈ asked, Relation.TransGen rule.Needs (rule.identity q.state) (rule.identity s) from
        ⟨hquery.1.begin, hquery.2⟩
      refine Query.accounts_resolveAsking (P := Memory.Consistent rule)
        (B := fun t => Relation.TransGen rule.Needs (rule.identity t) (rule.identity s))
        (rule.query s) (fun t (ht : DependsOn rule.query t s) m value m' asked hm h => ?_)
        (m := m.begin s) hm h
      have hplain : lookUp rule fuel t m = some (value, m') := by
        rw [← map_lookUpAsking (map_evaluateAsking fuel), h]
        rfl
      obtain ⟨hbalance, hbelow⟩ := lookUpAsking_accounts hacyclic
        (fun m₁ nested => ih t m value m₁ nested hm) h
      refine ⟨lookUp_sound hwf hrespects (evaluate_sound hwf hrespects fuel) t m value m' hm hplain,
        hbalance, fun q hq => ?_⟩
      exact .tail' (hbelow q hq) ⟨t, s, ht, rfl, rfl⟩

theorem evaluateAllAsking_accounts (fuel : Nat) (starts : List S) (m : Memory S Id O)
    (m' : Memory S Id O) (asked : List (Question S)) (hm : m.Consistent rule)
    (h : evaluateAllAsking rule fuel starts m = some (m', asked)) :
    Accounts rule starts m m' asked := by
  induction starts generalizing m asked with
  | nil =>
      cases h
      exact .nil
  | cons s starts ih =>
      obtain ⟨⟨value, after, first⟩, heval, h⟩ := Option.bind_eq_some_iff.mp h
      obtain ⟨⟨last, rest⟩, hrest, hreturn⟩ := Option.bind_eq_some_iff.mp h
      cases hreturn
      obtain ⟨hfirst, -⟩ :=
        evaluateAsking_accounts hwf hrespects hacyclic fuel s m value after first hm heval
      obtain ⟨-, hafter⟩ := evaluate_sound hwf hrespects fuel s m value after hm
        (evaluate_of_evaluateAsking heval)
      exact hfirst.append (ih after rest hafter hrest)

omit hacyclic in
theorem evaluateAllAsking_isSome (starts : List S) : ∃ bound, ∀ fuel, bound ≤ fuel →
    (evaluateAllAsking rule fuel starts Memory.empty).isSome := by
  obtain ⟨bound, hbound⟩ := evaluateAll_isSome hwf hrespects starts
  refine ⟨bound, fun fuel hfuel => ?_⟩
  have h := hbound fuel hfuel Memory.empty Memory.consistent_empty
  rw [← Option.isSome_map, map_evaluateAllAsking, Option.isSome_map]
  exact h

end Evaluate

/-- Each identity is computed once. However many states are evaluated in turn with
one memory, the identities kept in the end are those that were asked for, no two
questions were answered by a computation of one identity, and the computations
begun are those of the states evaluated and one for every value kept. -/
theorem identities_computed_once (hwf : WellFounded (DependsOn rule.query))
    (hacyclic : rule.Acyclic) (hrespects : rule.Respects) (starts : List S) :
    (∀ fuel, (evaluateAllAsking rule fuel starts Memory.empty).map Prod.fst =
      (evaluateAll rule fuel starts Memory.empty).map fun evaluations =>
        (evaluations.map Evaluation.memory).getLastD Memory.empty) ∧
      Ends (fun fuel => evaluateAllAsking rule fuel starts Memory.empty) fun r =>
        (∀ id, id ∈ r.1.values ↔ ∃ q ∈ r.2, rule.identity q.state = id) ∧
          ((computed r.2).map rule.identity).Nodup ∧
          (r.1.history.map Call.state).Perm (starts ++ computed r.2) ∧
          r.1.history.length = starts.length + r.1.size := by
  refine ⟨fun fuel => map_evaluateAllAsking fuel starts _,
    evaluateAllAsking_isSome hwf hrespects starts, fun fuel r h => ?_⟩
  have hbalance := evaluateAllAsking_accounts hwf hrespects hacyclic fuel starts Memory.empty
    r.1 r.2 Memory.consistent_empty h
  have hbegun : (r.1.history.map Call.state).Perm (starts ++ computed r.2) := by
    simpa [Memory.empty] using hbalance.begun
  have hsize : r.1.size = (computed r.2).length := by
    simpa [Memory.size, Memory.empty] using hbalance.size
  refine ⟨fun id => ?_, hbalance.once, hbegun, ?_⟩
  · simpa [Memory.empty] using hbalance.kept id
  · have hlength := hbegun.length_eq
    rw [List.length_map, List.length_append] at hlength
    rw [hlength, hsize]

theorem acyclic_descent : descent.Acyclic := by
  have hlt : ∀ i j, Relation.TransGen descent.Needs i j → i < j := by
    intro i j h
    induction h with
    | single h =>
        obtain ⟨t, s, hasks, rfl, rfl⟩ := h
        exact natAbs_lt_of_asks hasks
    | tail _ h ih =>
        obtain ⟨t, s, hasks, rfl, rfl⟩ := h
        exact ih.trans (natAbs_lt_of_asks hasks)
  exact fun i h => (hlt i i h).false

/-- The second evaluation finds all it asks for, and the third what it shares with
the first. -/
theorem identities_computed_once_descent : ∃ m asked,
    evaluateAllAsking descent 6 [4, -4, 5] Memory.empty = some (m, asked) ∧
      computed asked = [-3, -2, -1, 0, -4] ∧
      ((computed asked).map descent.identity).Nodup ∧
      m.history.length = [4, -4, (5 : Int)].length + m.size := by
  have hwf : WellFounded (DependsOn descent.query) :=
    Subrelation.wf natAbs_lt_of_asks (measure Int.natAbs).wf
  have hrespects : descent.Respects :=
    Rule.respects_of_query_eq fun s t hid => congrArg descentQuery hid
  have hvalues : (evaluateAllAsking descent 6 [4, -4, 5] Memory.empty).map
      (fun (_, asked) => computed asked) = some [-3, -2, -1, 0, -4] := by cbv
  obtain ⟨⟨m, asked⟩, hrun, hmap⟩ := Option.map_eq_some_iff.mp hvalues
  obtain ⟨-, honce, -, hcount⟩ :=
    (identities_computed_once hwf acyclic_descent hrespects [4, -4, 5]).2.sound 6 (m, asked) hrun
  exact ⟨m, asked, hrun, hmap, honce, hcount⟩

end PuzzleKit.Recursion
