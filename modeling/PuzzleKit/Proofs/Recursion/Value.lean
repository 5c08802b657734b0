import PuzzleKit.Proofs.Fuel
import PuzzleKit.Recursion

/-!
# The value of a state

Without a memory, the value of a state is what its query answers once each of
its questions is answered by the value of the state asked for. `compute` does
just that, on fuel for the depth of the questions, and `Computes` is the
judgment that some fuel is enough. More fuel never changes an answer, so a
state computes at most one value.

Which states a state depends on is part of the same story, since a later
question may be chosen by an earlier answer: `DependsOn` follows the query
through the true answers only. If that relation is well founded every state has
a value, and nothing else is needed for it.
-/

namespace PuzzleKit.Recursion

variable {S O : Type}

/-- Carry out a query without a memory, given what answers its questions. -/
def Query.answerWith (answer : S → Option O) : Query S O → Option O
  | .answer value => some value
  | .ask s next => do (next (← answer s)).answerWith answer

/-- The value of a state by plain recursion, with questions nested less than
`fuel` deep. -/
def compute (query : S → Query S O) : Nat → S → Option O
  | 0, _ => none
  | fuel + 1, s => (query s).answerWith (compute query fuel)

/-- The plain recursion gives the state this value. -/
def Computes (query : S → Query S O) (s : S) (value : O) : Prop :=
  ∃ fuel, compute query fuel s = some value

/-- The query comes to this value if its questions are answered so. -/
inductive Query.Yields (answers : S → O → Prop) : Query S O → O → Prop
  | answer (value : O) : Yields answers (.answer value) value
  | ask {s : S} {next : O → Query S O} {v value : O} (hv : answers s v)
      (h : Yields answers (next v) value) : Yields answers (.ask s next) value

/-- The query comes to ask for this state if its questions are answered so. -/
inductive Query.Asks (answers : S → O → Prop) : Query S O → S → Prop
  | now (s : S) (next : O → Query S O) : Asks answers (.ask s next) s
  | later {s t : S} {next : O → Query S O} {v : O} (hv : answers s v)
      (h : Asks answers (next v) t) : Asks answers (.ask s next) t

/-- The value of `s` is computed from that of `t`, among others. -/
def DependsOn (query : S → Query S O) (t s : S) : Prop := (query s).Asks (Computes query) t

variable {query : S → Query S O}

theorem Query.answerWith_mono {f g : S → Option O}
    (h : ∀ s v, f s = some v → g s = some v) (q : Query S O) {value : O}
    (hq : q.answerWith f = some value) : q.answerWith g = some value := by
  induction q with
  | answer v => exact hq
  | ask s next ih =>
      obtain ⟨v, hv, hnext⟩ := Option.bind_eq_some_iff.mp hq
      exact Option.bind_eq_some_iff.mpr ⟨v, h s v hv, ih v hnext⟩

theorem compute_mono {n m : Nat} {s : S} {value : O} (h : compute query n s = some value)
    (hle : n ≤ m) : compute query m s = some value := by
  induction n generalizing m s value with
  | zero => cases h
  | succ n ih =>
      obtain ⟨m, rfl⟩ : ∃ k, m = k + 1 := ⟨m - 1, by omega⟩
      exact Query.answerWith_mono (fun _ _ hv => ih hv (by omega)) _ h

theorem computes_unique {s : S} {v w : O} (hv : Computes query s v) (hw : Computes query s w) :
    v = w := by
  obtain ⟨n, hn⟩ := hv
  obtain ⟨m, hm⟩ := hw
  have h1 := compute_mono hn (Nat.le_max_left n m)
  have h2 := compute_mono hm (Nat.le_max_right n m)
  exact Option.some.inj (h1.symm.trans h2)

theorem Query.exists_answerWith_of_yields {q : Query S O} {value : O}
    (h : q.Yields (Computes query) value) :
    ∃ fuel, q.answerWith (compute query fuel) = some value := by
  induction h with
  | answer value => exact ⟨0, rfl⟩
  | ask hv _ ih =>
      obtain ⟨n, hn⟩ := hv
      obtain ⟨m, hm⟩ := ih
      refine ⟨max n m, Option.bind_eq_some_iff.mpr ⟨_, compute_mono hn (Nat.le_max_left n m), ?_⟩⟩
      exact Query.answerWith_mono (fun _ _ h => compute_mono h (Nat.le_max_right n m)) _ hm

theorem computes_of_yields {s : S} {value : O} (h : (query s).Yields (Computes query) value) :
    Computes query s value := by
  obtain ⟨fuel, hfuel⟩ := Query.exists_answerWith_of_yields h
  exact ⟨fuel + 1, hfuel⟩

/-- A query whose questions all have answers has a value. -/
theorem Query.exists_yields {answers : S → O → Prop} (q : Query S O)
    (h : ∀ t, q.Asks answers t → ∃ v, answers t v) : ∃ value, q.Yields answers value := by
  induction q with
  | answer value => exact ⟨value, .answer value⟩
  | ask s next ih =>
      obtain ⟨v, hv⟩ := h s (.now s next)
      obtain ⟨value, hvalue⟩ := ih v fun t ht => h t (.later hv ht)
      exact ⟨value, .ask hv hvalue⟩

theorem exists_computes (hwf : WellFounded (DependsOn query)) (s : S) :
    ∃ value, Computes query s value := by
  induction s using hwf.induction with
  | _ s ih =>
      obtain ⟨value, hvalue⟩ := (query s).exists_yields ih
      exact ⟨value, computes_of_yields hvalue⟩

end PuzzleKit.Recursion
