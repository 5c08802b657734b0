import Mathlib.Data.Set.Card
import Mathlib.Data.Set.Finite.Range
import Mathlib.Data.Setoid.Basic
import Mathlib.Order.CompletePartialOrder
import PuzzleKit.Partition.Basic
import PuzzleKit.Proofs.Fallible
import PuzzleKit.Proofs.Partition.Root

/-!
# A partition is the equivalence of what was united

Whatever calls are made on a partition in whatever order, two elements are in
one set exactly if the pairs united so far make them equivalent, and the number
of sets that is kept along with the forest is the number of classes.

All that the forest has to do with this is the kernel of its roots. Finding
leaves the kernel alone. Uniting two elements either leaves it alone, if they
have one root already, or lets one root take over the tree of another, which
joins the kernel with the pair and takes one value from the range of the roots.
The classes are as many as the values in that range, so the count stays right
and there was something to take off it.
-/

namespace PuzzleKit.Partition

variable {n : Nat}

/-! ## Taking over a value -/

section TakeOver

variable {α β : Type} {root taken : α → β} {i j : α}

theorem sup_of_left {r s : Setoid α} (h : r i j) : (r ⊔ s) i j :=
  (le_sup_left : r ≤ r ⊔ s) h

theorem sup_of_right {r s : Setoid α} (h : s i j) : (r ⊔ s) i j :=
  (le_sup_right : s ≤ r ⊔ s) h

/-- The least equivalence in which two elements are related. -/
abbrev joining (i j : α) : Setoid α := Relation.EqvGen.setoid fun a b => a = i ∧ b = j

theorem joining_self (i j : α) : joining i j i j := .rel _ _ ⟨rfl, rfl⟩

theorem joining_le {r : Setoid α} (h : r i j) : joining i j ≤ r := by
  refine Setoid.eqvGen_le ?_
  rintro a b ⟨rfl, rfl⟩
  exact h

theorem joining_comm (i j : α) : joining i j = joining j i :=
  le_antisymm (joining_le (Setoid.symm' _ (joining_self j i)))
    (joining_le (Setoid.symm' _ (joining_self i j)))

variable [DecidableEq β]

/-- `taken` has the value of `j` where `root` has that of `i`, and agrees with
`root` elsewhere. -/
def TakesOver (i j : α) (root taken : α → β) : Prop :=
  root i ≠ root j ∧ ∀ a, taken a = if root a = root i then root j else root a

theorem TakesOver.ker_eq (h : TakesOver i j root taken) :
    Setoid.ker taken = Setoid.ker root ⊔ joining i j := by
  obtain ⟨hne, htaken⟩ := h
  have hi : taken i = root j := by rw [htaken, if_pos rfl]
  have hj : taken j = root j := by rw [htaken, if_neg hne.symm]
  refine le_antisymm ?_ (sup_le ?_ (joining_le (hi.trans hj.symm)))
  · intro a b hab
    have hjoin : (Setoid.ker root ⊔ joining i j) i j := sup_of_right (joining_self i j)
    have hker : ∀ {a b}, root a = root b → (Setoid.ker root ⊔ joining i j) a b :=
      fun h => sup_of_left h
    -- Two elements that agree now have agreed before, or one of them had the
    -- value of `i` and the other has that of `j`.
    have hab : taken a = taken b := hab
    rw [htaken, htaken] at hab
    split at hab
    · next ha =>
        split at hab
        · next hb => exact hker (ha.trans hb.symm)
        · exact Setoid.trans' _ (Setoid.trans' _ (hker ha) hjoin) (hker hab)
    · split at hab
      · next hb =>
          exact Setoid.trans' _ (hker hab)
            (Setoid.trans' _ (Setoid.symm' _ hjoin) (hker hb.symm))
      · exact hker hab
  · intro a b hab
    have hab : root a = root b := hab
    change taken a = taken b
    rw [htaken, htaken, hab]

theorem TakesOver.range_eq (h : TakesOver i j root taken) :
    Set.range taken = Set.range root \ {root i} := by
  obtain ⟨hne, htaken⟩ := h
  ext v
  constructor
  · rintro ⟨a, rfl⟩
    rw [htaken]
    split
    · exact ⟨⟨j, rfl⟩, hne.symm⟩
    · next ha => exact ⟨⟨a, rfl⟩, ha⟩
  · rintro ⟨⟨a, rfl⟩, ha⟩
    exact ⟨a, (htaken a).trans (if_neg ha)⟩

theorem TakesOver.ncard_range [Finite α] (h : TakesOver i j root taken) :
    (Set.range taken).ncard + 1 = (Set.range root).ncard := by
  rw [h.range_eq]
  exact Set.ncard_sdiff_singleton_add_one ⟨i, rfl⟩ (Set.finite_range root)

end TakeOver

/-! ## What a partition stands for -/

/-- The sets of a partition are the classes of an equivalence, and their number
is the one that is kept. -/
structure Sound (p : Partition n) (r : Setoid (Fin n)) : Prop where
  ker_root : Setoid.ker p.forest.root = r
  setCount_eq : p.setCount = (Set.range p.forest.root).ncard

variable {p : Partition n} {r : Setoid (Fin n)} {a b : Fin n}

theorem Sound.root_eq_iff (h : p.Sound r) : p.forest.root a = p.forest.root b ↔ r a b := by
  rw [← h.ker_root]
  rfl

theorem Sound.setCount_eq_card (h : p.Sound r) : p.setCount = Nat.card (Quotient r) := by
  rw [h.setCount_eq, ← h.ker_root, Nat.card_congr (Setoid.quotientKerEquivRange p.forest.root)]
  rfl

theorem discrete_sound (n : Nat) : (discrete n).Sound ⊥ := by
  have hroot : (discrete n).forest.root = id := by
    funext i
    exact Forest.root_of_parent_eq (Vector.getElem_ofFn ..)
  refine ⟨?_, ?_⟩
  · rw [hroot]
    exact Setoid.ker_eq_bot_iff.mpr Function.injective_id
  · rw [hroot, Set.range_id, Set.ncard_univ, Nat.card_fin]
    rfl

/-- Nothing but the roots and the count matters. -/
theorem Sound.of_root_eq (h : p.Sound r) {p' : Partition n}
    (hroot : p'.forest.root = p.forest.root) (hcount : p'.setCount = p.setCount) :
    p'.Sound r := by
  refine ⟨?_, ?_⟩
  · rw [hroot]
    exact h.ker_root
  · rw [hroot, hcount]
    exact h.setCount_eq

theorem Sound.takesOver (h : p.Sound r) {forest : Forest n} {i j : Fin n}
    (htakes : TakesOver i j p.forest.root forest.root) :
    (⟨forest, p.setCount - 1⟩ : Partition n).Sound (r ⊔ joining i j) ∧
      p.setCount - 1 + 1 = p.setCount := by
  have hcount := htakes.ncard_range
  rw [← h.setCount_eq] at hcount
  refine ⟨⟨?_, ?_⟩, by omega⟩
  · rw [← h.ker_root]
    exact htakes.ker_eq
  · simp only []
    omega

theorem unite_cases (p : Partition n) (i j : Fin n) :
    (p.forest.root i = p.forest.root j ∧
        ∃ forest, forest.root = p.forest.root ∧ p.unite i j = (false, { p with forest })) ∨
      ∃ forest, (TakesOver i j p.forest.root forest.root ∨
          TakesOver j i p.forest.root forest.root) ∧
        p.unite i j = (true, ⟨forest, p.setCount - 1⟩) := by
  have hroot : ((p.forest.compress i).compress j).root = p.forest.root := by
    funext k
    rw [Forest.root_compress, Forest.root_compress]
  rw [unite]
  generalize (p.forest.compress i).compress j = f at hroot
  rw [← hroot]
  split
  · next heq => exact Or.inl ⟨heq, f, rfl, rfl⟩
  · next hne =>
      refine Or.inr ⟨_, ?_, rfl⟩
      exact (Forest.root_link (f.parent_root i) (f.parent_root j) hne).imp
        (fun htaken => ⟨hne, htaken⟩) (fun htaken => ⟨Ne.symm hne, htaken⟩)

theorem Sound.unite (h : p.Sound r) (i j : Fin n) :
    (p.unite i j).2.Sound (r ⊔ joining i j) ∧ ((p.unite i j).1 = true ↔ ¬r i j) ∧
      (p.unite i j).2.setCount + (p.unite i j).1.toNat = p.setCount := by
  rcases unite_cases p i j with ⟨heq, forest, hroot, hunite⟩ | ⟨forest, htakes, hunite⟩
  · have hij : r i j := h.root_eq_iff.mp heq
    rw [hunite, sup_eq_left.mpr (joining_le hij)]
    exact ⟨h.of_root_eq hroot rfl, by simpa using hij, rfl⟩
  · have hij : ¬r i j := by
      rw [← h.root_eq_iff]
      exact htakes.elim And.left fun htakes => htakes.1.symm
    obtain ⟨hsound, hcount⟩ : (⟨forest, p.setCount - 1⟩ : Partition n).Sound (r ⊔ joining i j) ∧
        p.setCount - 1 + 1 = p.setCount := by
      rcases htakes with htakes | htakes
      · exact h.takesOver htakes
      · rw [joining_comm]
        exact h.takesOver htakes
    rw [hunite]
    exact ⟨hsound, by simpa using hij, hcount⟩

/-! ## Calls

A call is made with elements, so none of its indices is out of bounds. Calls
follow each other on one partition; even a find leaves another forest behind.
-/

inductive Call (n : Nat)
  | union (a b : Fin n)
  | find (a : Fin n)
  | sameSet (a b : Fin n)

inductive Answer (n : Nat)
  | united (wereTwo : Bool)
  | representative (r : Fin n)
  | same (together : Bool)
deriving DecidableEq

def Call.answer (p : Partition n) : Call n → Except PartitionFault (Answer n × Partition n)
  | .union a b => do
    let (wereTwo, p) ← p.union a b
    return (.united wereTwo, p)
  | .find a => do
    let (r, p) ← p.find a
    return (.representative r, p)
  | .sameSet a b => do
    let together ← p.sameSet a b
    return (.same together, p)

def run (p : Partition n) : List (Call n) → Except PartitionFault (List (Answer n) × Partition n)
  | [] => .ok ([], p)
  | call :: calls => do
    let (answer, p) ← call.answer p
    let (answers, p) ← p.run calls
    return (answer :: answers, p)

/-- The equivalence that the pairs of the unions among some calls generate. -/
abbrev generated (calls : List (Call n)) : Setoid (Fin n) :=
  Relation.EqvGen.setoid fun a b => Call.union a b ∈ calls

/-- The answers of a partition whose sets are the classes of an equivalence. -/
structure Represents (p : Partition n) (r : Setoid (Fin n)) : Prop where
  sameSet : ∀ a b : Fin n, ∃ together, p.sameSet a b = .ok together ∧ (together = true ↔ r a b)
  find : ∀ a b : Fin n, ∃ ra pa rb pb, p.find a = .ok (ra, pa) ∧ pa.find b = .ok (rb, pb) ∧
    (ra = rb ↔ r a b)
  find_find : ∀ a : Fin n, ∃ ra pa pb, p.find a = .ok (ra, pa) ∧ pa.find ra = .ok (ra, pb)
  union : ∀ a b : Fin n, ∃ wereTwo p', p.union a b = .ok (wereTwo, p') ∧
    (wereTwo = true ↔ ¬r a b) ∧ (wereTwo = true → 0 < p.setCount)
  setCount : p.setCount = Nat.card (Quotient r)

theorem element_val (i : Fin n) (fault : PartitionFault) : element n i fault = .ok i :=
  dif_pos i.isLt

theorem sameSet_val (p : Partition n) (a b : Fin n) :
    p.sameSet a b = .ok (decide (p.forest.root a = p.forest.root b)) := by
  rw [sameSet, element_val, element_val]
  rfl

theorem exists_find (p : Partition n) (a : Fin n) :
    ∃ p', p.find a = .ok (p.forest.root a, p') ∧ p'.forest.root = p.forest.root ∧
      p'.setCount = p.setCount := by
  rw [find, element_val]
  exact ⟨_, rfl, funext (Forest.root_compress p.forest a), rfl⟩

theorem union_val (p : Partition n) (a b : Fin n) :
    p.union a b = .ok (if a = b then (false, p) else p.unite a b) := by
  rw [union]
  by_cases h : a = b
  · rw [if_pos (congrArg Fin.val h), if_pos h]
  · rw [if_neg fun hval => h (Fin.ext hval), if_neg h, element_val, element_val]
    rfl

theorem Sound.union (h : p.Sound r) (a b : Fin n) :
    ∃ wereTwo p', p.union a b = .ok (wereTwo, p') ∧ p'.Sound (r ⊔ joining a b) ∧
      (wereTwo = true ↔ ¬r a b) ∧ p'.setCount + wereTwo.toNat = p.setCount := by
  rw [union_val]
  by_cases hab : a = b
  · subst hab
    rw [if_pos rfl]
    refine ⟨false, p, rfl, ?_, by simp, rfl⟩
    rw [sup_eq_left.mpr (joining_le (r.refl' a))]
    exact h
  · rw [if_neg hab]
    obtain ⟨hsound, hwereTwo, hcount⟩ := h.unite a b
    exact ⟨_, _, rfl, hsound, hwereTwo, hcount⟩

theorem Sound.represents (h : p.Sound r) : p.Represents r where
  sameSet a b := ⟨_, sameSet_val p a b, by rw [decide_eq_true_iff, h.root_eq_iff]⟩
  find a b := by
    obtain ⟨pa, ha, hroot, -⟩ := exists_find p a
    obtain ⟨pb, hb, -, -⟩ := exists_find pa b
    rw [hroot] at hb
    exact ⟨_, pa, _, pb, ha, hb, h.root_eq_iff⟩
  find_find a := by
    obtain ⟨pa, ha, hroot, -⟩ := exists_find p a
    obtain ⟨pb, hb, -, -⟩ := exists_find pa (p.forest.root a)
    rw [hroot, Forest.root_root] at hb
    exact ⟨_, pa, pb, ha, hb⟩
  union a b := by
    obtain ⟨wereTwo, p', hunion, -, hwereTwo, hcount⟩ := h.union a b
    refine ⟨wereTwo, p', hunion, hwereTwo, fun htwo => ?_⟩
    rw [htwo, Bool.toNat_true] at hcount
    omega
  setCount := h.setCount_eq_card

theorem generated_cons (call : Call n) (calls : List (Call n)) :
    generated (call :: calls) = generated [call] ⊔ generated calls := by
  refine le_antisymm (Setoid.eqvGen_le fun a b h => ?_) (sup_le ?_ ?_)
  · rcases List.mem_cons.mp h with rfl | h
    · exact sup_of_left (.rel _ _ List.mem_cons_self)
    · exact sup_of_right (.rel _ _ h)
  · refine Setoid.eqvGen_mono fun a b h => ?_
    rw [List.mem_singleton.mp h]
    exact List.mem_cons_self
  · exact Setoid.eqvGen_mono fun a b h => List.mem_cons_of_mem call h

theorem generated_union (a b : Fin n) : generated [Call.union a b] = joining a b := by
  rw [generated, joining]
  congr 1
  funext x y
  rw [List.mem_singleton, Call.union.injEq]

theorem sup_generated_of_ne_union {call : Call n} (h : ∀ a b, Call.union a b ≠ call) :
    r ⊔ generated [call] = r := by
  rw [sup_eq_left]
  exact Setoid.eqvGen_le fun a b hmem => absurd (List.mem_singleton.mp hmem) (h a b)

theorem Sound.answer (h : p.Sound r) (call : Call n) :
    ∃ answer p', call.answer p = .ok (answer, p') ∧ p'.Sound (r ⊔ generated [call]) ∧
      p'.setCount + [answer].count (.united true) = p.setCount := by
  cases call with
  | union a b =>
      obtain ⟨wereTwo, p', hunion, hsound, -, hcount⟩ := h.union a b
      refine ⟨.united wereTwo, p', ?_, ?_, ?_⟩
      · rw [Call.answer, hunion]
        rfl
      · rw [generated_union]
        exact hsound
      · rw [← hcount]
        cases wereTwo <;> rfl
  | find a =>
      obtain ⟨p', hfind, hroot, hcount⟩ := exists_find p a
      refine ⟨.representative (p.forest.root a), p', ?_, ?_, hcount⟩
      · rw [Call.answer, hfind]
        rfl
      · rw [sup_generated_of_ne_union (by rintro _ _ ⟨⟩)]
        exact h.of_root_eq hroot hcount
  | sameSet a b =>
      refine ⟨.same (decide (p.forest.root a = p.forest.root b)), p, ?_, ?_, rfl⟩
      · rw [Call.answer, sameSet_val]
        rfl
      · rw [sup_generated_of_ne_union (by rintro _ _ ⟨⟩)]
        exact h

theorem Sound.run (h : p.Sound r) (calls : List (Call n)) :
    ∃ answers p', p.run calls = .ok (answers, p') ∧ p'.Sound (r ⊔ generated calls) ∧
      p'.setCount + answers.count (.united true) = p.setCount := by
  induction calls generalizing p r with
  | nil =>
      refine ⟨[], p, rfl, ?_, rfl⟩
      rw [sup_eq_left.mpr (Setoid.eqvGen_le fun a b hmem => absurd hmem List.not_mem_nil)]
      exact h
  | cons call calls ih =>
      obtain ⟨answer, next, hanswer, hnext, hfirst⟩ := h.answer call
      obtain ⟨answers, p', hrun, hp', hrest⟩ := ih hnext
      refine ⟨answer :: answers, p', ?_, ?_, ?_⟩
      · rw [Partition.run, hanswer]
        exact bind_eq_ok_iff.mpr ⟨_, rfl, bind_eq_ok_iff.mpr ⟨_, hrun, rfl⟩⟩
      · rw [generated_cons, ← sup_assoc]
        exact hp'
      · rw [show answer :: answers = [answer] ++ answers from rfl, List.count_append]
        omega

theorem eq_discrete_of_ofSize (h : ofSize n = .ok p) : p = discrete n := by
  obtain ⟨_, -, hreturn⟩ := bind_eq_ok_iff.mp h
  cases hreturn
  rfl

/-- However unions, finds and comparisons follow each other on a new partition,
none of them is refused, and what the partition answers next is what the
equivalence generated by the unions so far demands. Every union of two sets has
taken one off their number. -/
theorem run_represents (n : Nat) (calls : List (Call n)) :
    (∀ start, ofSize n = .ok start → start = discrete n) ∧
      ∃ answers p, (discrete n).run calls = .ok (answers, p) ∧ p.Represents (generated calls) ∧
        p.setCount + answers.count (.united true) = n := by
  obtain ⟨answers, p, hrun, hsound, hcount⟩ := (discrete_sound n).run calls
  rw [bot_sup_eq] at hsound
  exact ⟨fun _ => eq_discrete_of_ofSize, answers, p, hrun, hsound.represents, hcount⟩

end PuzzleKit.Partition
