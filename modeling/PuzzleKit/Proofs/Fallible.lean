import Mathlib.Data.List.Forall2

/-!
# Computations that succeeded

An operation that may refuse is a term of `Except`, and what is known of such a
term is known when it was accepted. These lemmas take an accepted computation
apart: into an accepted first step and an accepted rest, into accepted cells,
and into the accepted steps of a loop. A refused one was refused in its first
step or in the rest, so a loop was refused at some item, and the items before
that one were accepted. Where a state is kept, too, it goes from the first step
to the rest.
-/

namespace PuzzleKit

variable {ε α β : Type}

theorem bind_eq_ok_iff {x : Except ε α} {f : α → Except ε β} {b : β} :
    x >>= f = .ok b ↔ ∃ a, x = .ok a ∧ f a = .ok b := by
  cases x with
  | error e => exact ⟨(nomatch ·), fun ⟨_, h, _⟩ => nomatch h⟩
  | ok a => exact ⟨fun h => ⟨a, rfl, h⟩, fun ⟨_, h, hf⟩ => by cases h; exact hf⟩

theorem bind_eq_error_iff {x : Except ε α} {f : α → Except ε β} {e : ε} :
    x >>= f = .error e ↔ x = .error e ∨ ∃ a, x = .ok a ∧ f a = .error e := by
  cases x with
  | error e' =>
      refine ⟨fun h => .inl (by cases h; rfl), ?_⟩
      rintro (h | ⟨a, h, -⟩)
      · cases h
        rfl
      · cases h
  | ok a =>
      refine ⟨fun h => .inr ⟨a, rfl, h⟩, ?_⟩
      rintro (h | ⟨a', h, hf⟩)
      · cases h
      · cases h
        exact hf

theorem run_bind_eq_ok_iff {x : ExceptT ε Id α} {f : α → ExceptT ε Id β} {b : β} :
    (x >>= f).run = .ok b ↔ ∃ a, x.run = .ok a ∧ (f a).run = .ok b := by
  rw [← bind_eq_ok_iff (x := x.run) (f := fun a => (f a).run), ExceptT.run_bind]
  cases x.run <;> rfl

theorem mapError_eq_ok_iff {δ : Type} {x : Except ε α} {f : ε → δ} {a : α} :
    x.mapError f = .ok a ↔ x = .ok a := by
  cases x with
  | error e => exact ⟨(nomatch ·), (nomatch ·)⟩
  | ok b => exact ⟨fun h => by cases h; rfl, fun h => by cases h; rfl⟩

/-- A map of steps that all succeed is the map of their results. -/
theorem mapM_eq_pure {m : Type → Type} [Monad m] [LawfulMonad m] {f : α → m β} {f' : α → β}
    {items : List α} (h : ∀ a ∈ items, f a = pure (f' a)) :
    items.mapM f = pure (items.map f') := by
  induction items with
  | nil => rfl
  | cons a items ih =>
      rw [List.mapM_cons, h a List.mem_cons_self, ih fun b hb => h b (List.mem_cons_of_mem a hb)]
      simp

theorem mapM_eq_ok {f : α → Except ε β} {f' : α → β} {items : List α}
    (h : ∀ a ∈ items, f a = .ok (f' a)) : items.mapM f = .ok (items.map f') :=
  mapM_eq_pure h

/-- Results one by one, if every item has one. -/
theorem mapM_eq_ok_iff_forall₂ {f : α → Except ε β} {items : List α} {results : List β} :
    items.mapM f = .ok results ↔ List.Forall₂ (fun a b => f a = .ok b) items results := by
  induction items generalizing results with
  | nil =>
      rw [List.mapM_nil, List.forall₂_nil_left_iff]
      exact ⟨fun h => by cases h; rfl, fun h => by cases h; rfl⟩
  | cons a items ih =>
      rw [List.mapM_cons, bind_eq_ok_iff, List.forall₂_cons_left_iff]
      constructor
      · rintro ⟨b, hb, h⟩
        obtain ⟨rest, hrest, h⟩ := bind_eq_ok_iff.mp h
        cases h
        exact ⟨b, rest, hb, ih.mp hrest, rfl⟩
      · rintro ⟨b, rest, hb, hrest, rfl⟩
        exact ⟨b, hb, bind_eq_ok_iff.mpr ⟨rest, ih.mpr hrest, rfl⟩⟩

theorem exists_mapM_eq_ok_iff {f : α → Except ε β} {items : List α} :
    (∃ results, items.mapM f = .ok results) ↔ ∀ a ∈ items, ∃ b, f a = .ok b := by
  induction items with
  | nil => exact ⟨fun _ => List.forall_mem_nil _, fun _ => ⟨[], rfl⟩⟩
  | cons a items ih =>
      rw [List.forall_mem_cons, ← ih]
      simp only [List.mapM_cons, bind_eq_ok_iff]
      constructor
      · rintro ⟨_, b, hb, rest, hrest, -⟩
        exact ⟨⟨b, hb⟩, rest, hrest⟩
      · rintro ⟨⟨b, hb⟩, rest, hrest⟩
        exact ⟨b :: rest, b, hb, rest, hrest, rfl⟩

/-- The fault of the first item that has no result. -/
theorem mapM_eq_error_iff {f : α → Except ε β} {items : List α} {e : ε} :
    items.mapM f = .error e ↔ ∃ before a after, items = before ++ a :: after ∧
      (∀ a' ∈ before, ∃ b, f a' = .ok b) ∧ f a = .error e := by
  induction items with
  | nil =>
      refine ⟨(nomatch ·), ?_⟩
      rintro ⟨before, a, after, h, -⟩
      exact absurd h.symm (List.append_ne_nil_of_right_ne_nil _ (List.cons_ne_nil _ _))
  | cons a items ih =>
      rw [List.mapM_cons, bind_eq_error_iff]
      constructor
      · rintro (ha | ⟨b, hb, h⟩)
        · exact ⟨[], a, items, rfl, List.forall_mem_nil _, ha⟩
        · rcases bind_eq_error_iff.mp h with hrest | ⟨rest, -, h⟩
          · obtain ⟨before, a', after, rfl, hbefore, ha'⟩ := ih.mp hrest
            exact ⟨a :: before, a', after, rfl, List.forall_mem_cons.mpr ⟨⟨b, hb⟩, hbefore⟩, ha'⟩
          · cases h
      · rintro ⟨before, a', after, hitems, hbefore, ha'⟩
        cases before with
        | nil =>
            obtain ⟨rfl, -⟩ := List.cons.inj hitems
            exact .inl ha'
        | cons first before =>
            obtain ⟨rfl, rfl⟩ := List.cons.inj hitems
            obtain ⟨⟨b, hb⟩, hbefore⟩ := List.forall_mem_cons.mp hbefore
            have hrest := ih.mpr ⟨before, a', after, rfl, hbefore, ha'⟩
            exact .inr ⟨b, hb, bind_eq_error_iff.mpr (.inl hrest)⟩

/-- A vector is accepted cell by cell. -/
theorem get_of_ofFnM_eq_ok {n : Nat} {f : Fin n → Except ε α} {v : Vector α n}
    (h : Vector.ofFnM f = .ok v) (i : Fin n) : f i = .ok (v.get i) := by
  induction n with
  | zero => exact i.elim0
  | succ n ih =>
      rw [Vector.ofFnM_succ] at h
      obtain ⟨front, hfront, h⟩ := bind_eq_ok_iff.mp h
      obtain ⟨last, hlast, h⟩ := bind_eq_ok_iff.mp h
      cases h
      cases i using Fin.lastCases with
      | last =>
          rw [hlast]
          exact congrArg Except.ok (Vector.getElem_push_last ..).symm
      | cast i =>
          rw [ih hfront i]
          exact congrArg Except.ok (Vector.getElem_push_lt ..).symm

/-- Cells that are all accepted make an accepted vector. -/
theorem ofFnM_eq_ok {n : Nat} {f : Fin n → Except ε α} {v : Vector α n}
    (h : ∀ i, f i = .ok (v.get i)) : Vector.ofFnM f = .ok v := by
  have hcells : f = fun i => pure (v.get i) := funext h
  rw [hcells, Vector.ofFnM_pure]
  exact congrArg Except.ok (Vector.ext fun i hi => Vector.getElem_ofFn hi)

/-- An invariant of an accepted loop over the indices from `k` on, stated for
the number of those that are done. -/
theorem foldlM_preserves {P : Nat → α → Prop} {step : α → β → Except ε α} {index : β → Nat}
    (hstep : ∀ a b a', P (index b) a → step a b = .ok a' → P (index b + 1) a')
    {items : List β} {k : Nat} {a a' : α}
    (hitems : items.map index = List.range' k items.length) (ha : P k a)
    (h : items.foldlM step a = .ok a') : P (k + items.length) a' := by
  induction items generalizing k a with
  | nil => cases h; exact ha
  | cons b items ih =>
      rw [List.foldlM_cons] at h
      obtain ⟨next, hnext, h⟩ := bind_eq_ok_iff.mp h
      rw [List.map_cons, List.length_cons, List.range'_succ] at hitems
      obtain ⟨hindex, hitems⟩ := List.cons.inj hitems
      rw [List.length_cons, Nat.add_comm items.length, ← Nat.add_assoc]
      subst hindex
      exact ih hitems (hstep a b next ha hnext) h

/-- A loop whose steps are all accepted where the invariant holds. -/
theorem exists_foldlM_eq_ok {P : Nat → α → Prop} {step : α → β → Except ε α} {index : β → Nat}
    {items : List β} (hstep : ∀ a, ∀ b ∈ items, P (index b) a →
      ∃ a', step a b = .ok a' ∧ P (index b + 1) a')
    {k : Nat} {a : α} (hitems : items.map index = List.range' k items.length) (ha : P k a) :
    ∃ a', items.foldlM step a = .ok a' ∧ P (k + items.length) a' := by
  induction items generalizing k a with
  | nil => exact ⟨a, rfl, ha⟩
  | cons b items ih =>
      rw [List.map_cons, List.length_cons, List.range'_succ] at hitems
      obtain ⟨hindex, hitems⟩ := List.cons.inj hitems
      subst hindex
      obtain ⟨next, hnext, hP⟩ := hstep a b List.mem_cons_self ha
      obtain ⟨a', hrest, hP'⟩ :=
        ih (fun a b hb => hstep a b (List.mem_cons_of_mem _ hb)) hitems hP
      rw [List.length_cons, Nat.add_comm items.length, ← Nat.add_assoc]
      exact ⟨a', by rw [List.foldlM_cons]; exact bind_eq_ok_iff.mpr ⟨next, hnext, hrest⟩, hP'⟩

/-! ## Steps that keep a state -/

section Steps

variable {σ γ : Type} {s s₁ s' : σ} {e : ε} {x : ExceptT ε (StateM σ) β}
  {next : β → ExceptT ε (StateM σ) γ} {b : β}

theorem bind_apply_of_ok (h : x s = (.ok b, s₁)) : (x >>= next) s = next b s₁ := by
  change StateT.bind x (ExceptT.bindCont next) s = _
  simp only [StateT.bind, h]
  rfl

theorem bind_apply_of_error (h : x s = (.error e, s₁)) : (x >>= next) s = (.error e, s₁) := by
  change StateT.bind x (ExceptT.bindCont next) s = _
  simp only [StateT.bind, h]
  rfl

theorem bind_apply_eq_ok_iff {c : γ} :
    (x >>= next) s = (.ok c, s') ↔ ∃ b s₁, x s = (.ok b, s₁) ∧ next b s₁ = (.ok c, s') := by
  constructor
  · intro h
    rcases hx : x s with ⟨e | b, s₁⟩
    · rw [bind_apply_of_error hx] at h
      cases h
    · rw [bind_apply_of_ok hx] at h
      exact ⟨b, s₁, rfl, h⟩
  · rintro ⟨b, s₁, hx, h⟩
    rw [bind_apply_of_ok hx, h]

theorem bind_apply_eq_error_iff :
    (x >>= next) s = (.error e, s') ↔
      x s = (.error e, s') ∨ ∃ b s₁, x s = (.ok b, s₁) ∧ next b s₁ = (.error e, s') := by
  constructor
  · intro h
    rcases hx : x s with ⟨e' | b, s₁⟩
    · rw [bind_apply_of_error hx] at h
      cases h
      exact .inl rfl
    · rw [bind_apply_of_ok hx] at h
      exact .inr ⟨b, s₁, rfl, h⟩
  · rintro (hx | ⟨b, s₁, hx, h⟩)
    · exact bind_apply_of_error hx
    · rw [bind_apply_of_ok hx, h]

end Steps

end PuzzleKit
