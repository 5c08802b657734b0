/-!
# Forests of ranked trees

The elements `0 … n - 1` are grouped into sets by a forest: each element has a
parent, the root of a tree is its own parent and stands for the set. Ranks grow
along the parent links, so following them ends; and linking two trees puts the
one of lower rank below the other, so the links stay few. Finding a root
redirects everything on the way to it, which changes no root.

The ranks and the parents are constrained by the type, hence following the
parents needs no bound from outside.
-/

namespace PuzzleKit

structure Forest (n : Nat) where
  parent : Vector (Fin n) n
  rank : Vector Nat n
  /-- A bound of the ranks. -/
  top : Nat
  rank_lt : ∀ i, parent.get i ≠ i → rank.get i < rank.get (parent.get i)
  rank_le : ∀ i, rank.get i ≤ top

namespace Forest

theorem get_eq {α : Type} {n : Nat} (v : Vector α n) (i : Fin n) : v.get i = v[i.val] := rfl

theorem get_set {α : Type} {n : Nat} (v : Vector α n) (i j : Fin n) (a : α) :
    (v.set i a).get j = if i = j then a else v.get j := by
  by_cases h : i = j
  · subst h
    simp [get_eq]
  · have hv : i.val ≠ j.val := fun e => h (Fin.ext e)
    simp [get_eq, Vector.getElem_set_ne _ _ hv, h]

variable {n : Nat}

/-- Every element in a tree of its own. -/
def discrete (n : Nat) : Forest n where
  parent := Vector.ofFn id
  rank := Vector.replicate n 0
  top := 0
  rank_lt := by intro i h; simp [get_eq] at h
  rank_le := by intro i; simp [get_eq]

/-- The root of the tree of an element. -/
def root (f : Forest n) (i : Fin n) : Fin n :=
  if f.parent.get i = i then i else f.root (f.parent.get i)
termination_by f.top - f.rank.get i
decreasing_by
  rename_i h
  have h1 := f.rank_lt i h
  have h2 := f.rank_le (f.parent.get i)
  omega

theorem root_of_parent_eq {f : Forest n} {i : Fin n} (h : f.parent.get i = i) :
    f.root i = i := by
  rw [root, if_pos h]

theorem root_of_parent_ne {f : Forest n} {i : Fin n} (h : f.parent.get i ≠ i) :
    f.root i = f.root (f.parent.get i) := by
  rw [root, if_neg h]

/-- The root of a tree is its own parent. -/
theorem parent_root (f : Forest n) (i : Fin n) : f.parent.get (f.root i) = f.root i := by
  fun_induction root f i with
  | case1 i h => exact h
  | case2 i h ih => exact ih

/-- An element and those above it, the root last. -/
def ancestors (f : Forest n) (i : Fin n) : List (Fin n) :=
  if f.parent.get i = i then [i] else i :: f.ancestors (f.parent.get i)
termination_by f.top - f.rank.get i
decreasing_by
  rename_i h
  have h1 := f.rank_lt i h
  have h2 := f.rank_le (f.parent.get i)
  omega

/-- Make `r` the parent of `i`, if it has the greater rank. -/
def redirect (f : Forest n) (r i : Fin n) : Forest n :=
  if h : f.rank.get i < f.rank.get r then
    { f with
      parent := f.parent.set i r
      rank_lt := by
        intro j hj
        rw [get_set] at hj ⊢
        by_cases hij : i = j
        · subst hij
          simpa using h
        · rw [if_neg hij] at hj ⊢
          exact f.rank_lt j hj }
  else f

/-- Put everything from `i` up right below the root. -/
def compress (f : Forest n) (i : Fin n) : Forest n :=
  (f.ancestors i).foldl (fun g j => g.redirect (f.root i) j) f

/-- The root of an element, and the forest with the way to it made short. -/
def find (f : Forest n) (i : Fin n) : Fin n × Forest n := (f.root i, f.compress i)

/-- Put the root `b`, which has the rank of the root `a`, below it and let the
rank of `a` grow by one. -/
def raise (f : Forest n) (a b : Fin n) (ha : f.parent.get a = a) (hab : a ≠ b)
    (h : f.rank.get b = f.rank.get a) : Forest n where
  parent := f.parent.set b a
  rank := f.rank.set a (f.rank.get a + 1)
  top := Nat.max f.top (f.rank.get a + 1)
  rank_lt := by
    intro j hj
    rw [get_set] at hj ⊢
    rw [get_set, get_set]
    by_cases hb : b = j
    · subst hb
      rw [if_neg hab, if_pos rfl, if_pos rfl]
      omega
    · rw [if_neg hb] at hj ⊢
      have hlt := f.rank_lt j hj
      have hja : a ≠ j := fun e => hj (e ▸ ha)
      rw [if_neg hja]
      by_cases hp : a = f.parent.get j
      · rw [if_pos hp]
        rw [← hp] at hlt
        omega
      · rw [if_neg hp]
        exact hlt
  rank_le := by
    intro j
    rw [get_set]
    by_cases hja : a = j
    · rw [if_pos hja]
      exact Nat.le_max_right _ _
    · rw [if_neg hja]
      exact Nat.le_trans (f.rank_le j) (Nat.le_max_left _ _)

/-- Join the trees of two different roots. The root of lower rank goes below
the other one, and of two equal ranks `b` goes below `a`. -/
def link (f : Forest n) (a b : Fin n) (ha : f.parent.get a = a) (hab : a ≠ b) : Forest n :=
  if hb : f.rank.get a < f.rank.get b then f.redirect b a
  else if ha' : f.rank.get b < f.rank.get a then f.redirect a b
  else f.raise a b ha hab (Nat.le_antisymm (Nat.not_lt.1 hb) (Nat.not_lt.1 ha'))

end Forest

end PuzzleKit
