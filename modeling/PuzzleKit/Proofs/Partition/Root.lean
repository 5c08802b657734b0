import PuzzleKit.Partition.Forest

/-!
# Roots under redirection

The roots of a forest are determined by two equations: a root is its own root,
and an element has the root of its parent. So to know the roots after a change
of parents is to check these equations for the roots one expects, and nothing
has to be said about chains of parents. Redirecting an element within its tree
changes no root, hence neither does compressing. Redirecting a root to another
root gives its whole tree to the other one, which is what linking does, whatever
the ranks say about which of the two it is.
-/

namespace PuzzleKit.Forest

variable {n : Nat} {f g : Forest n} {i j r : Fin n}

theorem root_eq_of_parent (value : Fin n → Fin n) (hroot : ∀ i, f.parent.get i = i → value i = i)
    (hparent : ∀ i, value (f.parent.get i) = value i) (i : Fin n) : f.root i = value i := by
  fun_induction root f i with
  | case1 i h => exact (hroot i h).symm
  | case2 i _ ih => rw [ih, hparent]

theorem root_parent (f : Forest n) (i : Fin n) : f.root (f.parent.get i) = f.root i := by
  by_cases h : f.parent.get i = i
  · rw [h]
  · rw [root_of_parent_ne h]

theorem root_root (f : Forest n) (i : Fin n) : f.root (f.root i) = f.root i :=
  root_of_parent_eq (f.parent_root i)

/-- One element has got another parent, and all others have kept theirs. -/
def Redirected (i r : Fin n) (f g : Forest n) : Prop :=
  i ≠ r ∧ ∀ j, g.parent.get j = if i = j then r else f.parent.get j

theorem Redirected.root_eq (h : Redirected i r f g) (hroot : f.root i = f.root r) (j : Fin n) :
    g.root j = f.root j := by
  obtain ⟨hne, hparent⟩ := h
  refine root_eq_of_parent f.root (fun j hj => ?_) (fun j => ?_) j
  · rw [hparent] at hj
    split at hj
    · next hij => exact absurd (hij.trans hj.symm) hne
    · exact root_of_parent_eq hj
  · rw [hparent]
    split
    · next hij => rw [← hij, hroot]
    · exact root_parent f j

/-- A root that is put below another one takes its tree along. -/
theorem Redirected.root_of_roots (h : Redirected i r f g) (hi : f.parent.get i = i)
    (hr : f.parent.get r = r) (j : Fin n) : g.root j = if f.root j = i then r else f.root j := by
  obtain ⟨hne, hparent⟩ := h
  have hkeep : f.root r ≠ i := by
    rw [root_of_parent_eq hr]
    exact hne.symm
  refine root_eq_of_parent (fun j => if f.root j = i then r else f.root j) (fun j hj => ?_)
    (fun j => ?_) j
  · rw [hparent] at hj
    split at hj
    · next hij => exact absurd (hij.trans hj.symm) hne
    · next hij =>
        rw [root_of_parent_eq hj, if_neg fun heq => hij heq.symm]
  · simp only [hparent]
    by_cases hij : i = j
    · subst hij
      rw [if_pos rfl, if_neg hkeep, root_of_parent_eq hr, root_of_parent_eq hi, if_pos rfl]
    · rw [if_neg hij, root_parent]

/-! ## Compressing -/

theorem redirected_redirect (h : f.rank.get i < f.rank.get r) :
    Redirected i r f (f.redirect r i) := by
  refine ⟨fun heq => ?_, fun j => ?_⟩
  · rw [heq] at h
    exact Nat.lt_irrefl _ h
  · rw [redirect, dif_pos h]
    exact get_set f.parent i j r

theorem root_redirect (hroot : f.root i = f.root r) (j : Fin n) :
    (f.redirect r i).root j = f.root j := by
  by_cases h : f.rank.get i < f.rank.get r
  · exact (redirected_redirect h).root_eq hroot j
  · rw [redirect, dif_neg h]

theorem root_of_mem_ancestors (h : j ∈ f.ancestors i) : f.root j = f.root i := by
  fun_induction ancestors f i with
  | case1 i _ => rw [List.mem_singleton.mp h]
  | case2 i hi ih =>
      rcases List.mem_cons.mp h with rfl | h
      · rfl
      · rw [ih h, root_of_parent_ne hi]

theorem root_foldl_redirect (js : List (Fin n)) (hjs : ∀ j ∈ js, f.root j = f.root r)
    (i : Fin n) : (js.foldl (fun g j => g.redirect r j) f).root i = f.root i := by
  induction js generalizing f with
  | nil => rfl
  | cons j js ih =>
      have hstep := root_redirect (hjs j List.mem_cons_self)
      rw [List.foldl_cons, ih fun k hk => ?_, hstep]
      rw [hstep, hstep]
      exact hjs k (List.mem_cons_of_mem j hk)

/-- Compressing changes no root. -/
theorem root_compress (f : Forest n) (i j : Fin n) : (f.compress i).root j = f.root j := by
  refine root_foldl_redirect (f.ancestors i) (fun k hk => ?_) j
  rw [root_root, root_of_mem_ancestors hk]

/-! ## Linking -/

theorem redirected_raise {ha : f.parent.get i = i} {hab : i ≠ r}
    {h : f.rank.get r = f.rank.get i} : Redirected r i f (f.raise i r ha hab h) :=
  ⟨hab.symm, fun j => get_set f.parent r j i⟩

/-- Of two roots that are linked, one gives its tree to the other. -/
theorem root_link {a b : Fin n} (ha : f.parent.get a = a) (hb : f.parent.get b = b)
    (hab : a ≠ b) :
    (∀ j, (f.link a b ha hab).root j = if f.root j = a then b else f.root j) ∨
      ∀ j, (f.link a b ha hab).root j = if f.root j = b then a else f.root j := by
  rw [link]
  split
  · next hlt => exact Or.inl ((redirected_redirect hlt).root_of_roots ha hb)
  · split
    · next hlt => exact Or.inr ((redirected_redirect hlt).root_of_roots hb ha)
    · exact Or.inr (redirected_raise.root_of_roots hb ha)

end PuzzleKit.Forest
