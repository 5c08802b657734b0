import PuzzleKit.Proofs.Partition.Groups

/-!
# Indices out of bounds

A union finds two roots, one after the other, before it joins their trees. When the second
index names no element, the first find has already shortened the ways in the forest, so a
refused union leaves another partition behind than it met. Finding changes no root, though,
and the sets are counted last, so nothing that can be asked tells the two apart (`Agrees`).

Two equal indices are not looked at, so their union is not refused, whatever they are. All
other indices out of bounds are refused, by every partition that calls can lead to. That the
partition comes from calls is needed for the counting: there is a set to take off.
-/

namespace PuzzleKit.Partition

variable {n : Nat} {β : Type} {p p' : Partition n} {r : Setoid (Fin n)} {a b : Nat} {i : Fin n}
  {fault : PartitionFault}

/-! ## Which calls are refused -/

theorem element_eq_ok_iff : element n a fault = .ok i ↔ a = i.val := by
  rw [element]
  split
  · exact ⟨fun h => by cases h; rfl, fun h => congrArg Except.ok (Fin.ext h)⟩
  · next hge => exact ⟨(nomatch ·), fun h => absurd (h ▸ i.isLt) hge⟩

theorem element_eq_error_iff {fault' : PartitionFault} :
    element n a fault = .error fault' ↔ n ≤ a ∧ fault' = fault := by
  rw [element]
  split
  · next hlt => exact ⟨(nomatch ·), fun ⟨hge, _⟩ => absurd hlt (Nat.not_lt.mpr hge)⟩
  · next hge =>
      exact ⟨fun h => by cases h; exact ⟨Nat.not_lt.mp hge, rfl⟩, fun ⟨_, h⟩ => by rw [h]⟩

theorem find_eq_error_iff : p.find a = .error fault ↔ n ≤ a ∧ fault = .noElementToFind := by
  rw [find, bind_eq_error_iff, element_eq_error_iff, or_iff_left]
  rintro ⟨i, -, h⟩
  cases h

/-- Of two elements that are looked up, the first one that is missing gives the fault. -/
theorem lookUp_eq_error_iff {γ : Type} {first second : PartitionFault}
    (answer : Fin n → Fin n → γ) :
    (do
      let i ← element n a first
      let j ← element n b second
      return answer i j) = .error fault ↔
      n ≤ a ∧ fault = first ∨ a < n ∧ n ≤ b ∧ fault = second := by
  rw [bind_eq_error_iff, element_eq_error_iff]
  refine or_congr_right ⟨?_, fun ⟨ha, hb⟩ => ⟨⟨a, ha⟩, element_eq_ok_iff.mpr rfl, ?_⟩⟩
  · rintro ⟨i, hi, h⟩
    rcases bind_eq_error_iff.mp h with h | ⟨j, -, h⟩
    · exact ⟨element_eq_ok_iff.mp hi ▸ i.isLt, element_eq_error_iff.mp h⟩
    · cases h
  · exact bind_eq_error_iff.mpr (.inl (element_eq_error_iff.mpr hb))

theorem sameSet_eq_error_iff :
    p.sameSet a b = .error fault ↔ (n ≤ a ∨ n ≤ b) ∧ fault = .noElementToCompare := by
  rw [sameSet, lookUp_eq_error_iff]
  by_cases ha : n ≤ a
  · simp [ha, Nat.not_lt.mpr ha]
  · simp [ha, Nat.lt_of_not_le ha]

theorem union_eq_error_iff : p.union a b = .error fault ↔
    a ≠ b ∧ (n ≤ a ∨ n ≤ b) ∧ fault = .noElementToUnite (if n ≤ a then a else b) := by
  rw [union]
  by_cases hab : a = b
  · rw [if_pos hab]
    exact ⟨fun h => (by cases h), fun h => absurd hab h.1⟩
  · rw [if_neg hab, lookUp_eq_error_iff, and_iff_right hab]
    by_cases ha : n ≤ a
    · simp [ha, Nat.not_lt.mpr ha]
    · simp [ha, Nat.lt_of_not_le ha]

/-! ## Union in place -/

/-- The root of the element with an index. -/
def findInPlace (fault : PartitionFault) (index : Nat) :
    ExceptT PartitionFault (StateM (Partition n)) (Fin n) :=
  inPlace fun p => do
    let i ← element n index fault
    return p.representative i

/-- Join the trees of two elements, if they are two. The sets are not counted. -/
def joinTrees (i j : Fin n) (p : Partition n) : Bool × Partition n :=
  if h : p.forest.root i = p.forest.root j then (false, p)
  else (true, { p with
    forest := p.forest.link (p.forest.root i) (p.forest.root j) (p.forest.parent_root i) h })

/-- Take one off the number of sets. -/
def countDown : ExceptT PartitionFault (StateM (Partition n)) Unit :=
  inPlace fun p =>
    if p.setCount = 0 then .error (.arithmetic .subOverflow)
    else .ok ((), { p with setCount := p.setCount - 1 })

/-- Union as a row of steps, each on the partition that the one before has left behind. -/
def unionInPlace (a b : Nat) : ExceptT PartitionFault (StateM (Partition n)) Bool := do
  if a = b then return false
  else
    let i ← findInPlace (.noElementToUnite a) a
    let j ← findInPlace (.noElementToUnite b) b
    let wereTwo ← inPlace fun p => .ok (joinTrees i j p)
    if wereTwo then countDown
    return wereTwo

/-- What is done in place to a partition is what a call does that returns another one. If the
call is refused, then what is left in place cannot be told from what was there before. -/
structure Performs (held : ExceptT PartitionFault (StateM (Partition n)) β)
    (call : Partition n → Except PartitionFault (β × Partition n)) (p : Partition n) : Prop where
  accepted : ∀ answer p', call p = .ok (answer, p') → held p = (.ok answer, p')
  refused : ∀ fault, call p = .error fault → ∃ p', held p = (.error fault, p') ∧ p'.Agrees p

theorem Agrees.refl (p : Partition n) : p.Agrees p := agrees_of_root_eq rfl rfl

section Performs

variable {held : ExceptT PartitionFault (StateM (Partition n)) β}
  {call : Partition n → Except PartitionFault (β × Partition n)} {answer : β}

theorem Performs.of_ok (hcall : call p = .ok (answer, p')) (hheld : held p = (.ok answer, p')) :
    Performs held call p where
  accepted answer' next h := by
    rw [hcall] at h
    cases h
    exact hheld
  refused fault h := by
    rw [hcall] at h
    cases h

theorem Performs.of_error (hcall : call p = .error fault) (hheld : held p = (.error fault, p'))
    (hagrees : p'.Agrees p) : Performs held call p where
  accepted answer next h := by
    rw [hcall] at h
    cases h
  refused fault' h := by
    rw [hcall] at h
    cases h
    exact ⟨p', hheld, hagrees⟩

/-- What is left in place is what was returned, or cannot be told from what was there. -/
theorem Performs.left_cases (h : Performs held call p) :
    (∃ answer, call p = .ok (answer, (held p).2)) ∨ (held p).2.Agrees p := by
  cases hcall : call p with
  | ok result =>
      refine .inl ⟨result.1, ?_⟩
      rw [h.accepted result.1 result.2 hcall]
  | error fault =>
      obtain ⟨p', hheld, hagrees⟩ := h.refused fault hcall
      rw [hheld]
      exact .inr hagrees

theorem performs_inPlace (call : Partition n → Except PartitionFault (β × Partition n))
    (p : Partition n) : Performs (inPlace call) call p where
  accepted answer p' h := by rw [inPlace, h]
  refused fault h := ⟨p, by rw [inPlace, h], .refl p⟩

end Performs

theorem findInPlace_val (fault : PartitionFault) (i : Fin n) (p : Partition n) :
    findInPlace fault i.val p = (.ok (p.forest.root i), (p.representative i).2) := by
  rw [findInPlace, inPlace, element_val]
  rfl

theorem findInPlace_of_le (ha : n ≤ a) (p : Partition n) :
    findInPlace fault a p = (.error fault, p) := by
  rw [findInPlace, inPlace, element_eq_error_iff.mpr ⟨ha, rfl⟩]
  rfl

theorem countDown_val (h : p.setCount ≠ 0) :
    countDown p = (.ok (), { p with setCount := p.setCount - 1 }) := by
  rw [countDown, inPlace, if_neg h]

theorem joinTrees_root (p : Partition n) (i j : Fin n) :
    joinTrees (p.forest.root i) (p.forest.root j) p = joinTrees i j p := by
  simp only [joinTrees, Forest.root_root]

theorem joinTrees_setCount (p : Partition n) (i j : Fin n) :
    (joinTrees i j p).2.setCount = p.setCount := by
  rw [joinTrees]
  split <;> rfl

/-- The partition after finding two elements. -/
def afterFinds (p : Partition n) (i j : Fin n) : Partition n :=
  ((p.representative i).2.representative j).2

theorem afterFinds_root (p : Partition n) (i j : Fin n) :
    (p.afterFinds i j).forest.root = p.forest.root := by
  funext k
  exact (Forest.root_compress _ j k).trans (Forest.root_compress _ i k)

/-- Uniting is finding, finding, joining and counting. -/
theorem unite_eq_joinTrees (p : Partition n) (i j : Fin n) :
    p.unite i j = ((joinTrees i j (p.afterFinds i j)).1,
      if (joinTrees i j (p.afterFinds i j)).1 then
        { (joinTrees i j (p.afterFinds i j)).2 with setCount := p.setCount - 1 }
      else (joinTrees i j (p.afterFinds i j)).2) := by
  have hfound : p.afterFinds i j =
      { p with forest := (p.forest.compress i).compress j } := rfl
  rw [unite, hfound, joinTrees]
  split <;> rfl

/-- In place, two elements are united in the same way, if there is a set to take off. -/
theorem unionInPlace_val {i j : Fin n} (hij : i ≠ j)
    (hcount : (p.unite i j).1 = true → p.setCount ≠ 0) :
    unionInPlace i.val j.val p = (.ok (p.unite i j).1, (p.unite i j).2) := by
  have hjoin : joinTrees (p.forest.root i) ((p.representative i).2.forest.root j)
      (p.afterFinds i j) = joinTrees i j (p.afterFinds i j) := by
    have hfirst : (p.representative i).2.forest.root j = p.forest.root j :=
      Forest.root_compress p.forest i j
    rw [hfirst, ← afterFinds_root p i j, joinTrees_root]
  have hstep : inPlace (fun q => .ok (joinTrees (p.forest.root i)
      ((p.representative i).2.forest.root j) q)) (p.afterFinds i j) =
        (.ok (joinTrees i j (p.afterFinds i j)).1, (joinTrees i j (p.afterFinds i j)).2) :=
    by rw [inPlace, hjoin]
  rw [unionInPlace, if_neg fun hval => hij (Fin.ext hval), bind_apply_of_ok (findInPlace_val _ i p),
    bind_apply_of_ok (findInPlace_val _ j _), ← afterFinds, bind_apply_of_ok hstep]
  rw [unite_eq_joinTrees] at hcount ⊢
  have hkept := joinTrees_setCount (p.afterFinds i j) i j
  generalize joinTrees i j (p.afterFinds i j) = result at hcount hkept ⊢
  obtain ⟨wereTwo, q⟩ := result
  cases wereTwo with
  | false => rfl
  | true =>
      have hq : q.setCount = p.setCount := hkept
      have hne : q.setCount ≠ 0 := hq ▸ hcount rfl
      rw [if_pos rfl, bind_apply_of_ok (countDown_val hne), hq]
      rfl

theorem unionInPlace_self (a : Nat) (p : Partition n) : unionInPlace a a p = (.ok false, p) := by
  rw [unionInPlace, if_pos rfl]
  rfl

theorem unionInPlace_of_le (hab : a ≠ b) (ha : n ≤ a) (p : Partition n) :
    unionInPlace a b p = (.error (.noElementToUnite a), p) := by
  rw [unionInPlace, if_neg hab, bind_apply_of_error (findInPlace_of_le ha p)]

/-- The first element is found before the second index is refused. -/
theorem unionInPlace_val_of_le (i : Fin n) (hb : n ≤ b) (p : Partition n) :
    unionInPlace i.val b p = (.error (.noElementToUnite b), (p.representative i).2) := by
  have hab : i.val ≠ b := Nat.ne_of_lt (Nat.lt_of_lt_of_le i.isLt hb)
  rw [unionInPlace, if_neg hab, bind_apply_of_ok (findInPlace_val _ i p),
    bind_apply_of_error (findInPlace_of_le hb _)]

theorem agrees_representative (p : Partition n) (i : Fin n) : (p.representative i).2.Agrees p :=
  agrees_of_root_eq (funext (Forest.root_compress p.forest i)) rfl

theorem Sound.performs_unionInPlace (h : p.Sound r) (a b : Nat) :
    Performs (unionInPlace a b) (fun p => p.union a b) p := by
  by_cases hab : a = b
  · subst hab
    exact .of_ok (if_pos rfl) (unionInPlace_self a p)
  by_cases ha : n ≤ a
  · refine .of_error (union_eq_error_iff.mpr ⟨hab, .inl ha, ?_⟩) (unionInPlace_of_le hab ha p)
      (.refl p)
    rw [if_pos ha]
  obtain ⟨i, rfl⟩ : ∃ i : Fin n, i.val = a := ⟨⟨a, Nat.lt_of_not_le ha⟩, rfl⟩
  by_cases hb : n ≤ b
  · refine .of_error (union_eq_error_iff.mpr ⟨hab, .inr hb, ?_⟩) (unionInPlace_val_of_le i hb p)
      (agrees_representative p i)
    rw [if_neg ha]
  obtain ⟨j, rfl⟩ : ∃ j : Fin n, j.val = b := ⟨⟨b, Nat.lt_of_not_le hb⟩, rfl⟩
  have hij : i ≠ j := fun heq => hab (congrArg Fin.val heq)
  refine .of_ok ((union_val p i j).trans (congrArg Except.ok (if_neg hij)))
    (unionInPlace_val hij fun htwo => ?_)
  have hcount := (h.unite i j).2.2
  rw [htwo, Bool.toNat_true] at hcount
  omega

/-! ## After any calls -/

/-- The partitions that calls lead to, one call after the other, refused ones among them.
Comparing, counting and asking for the size change nothing. -/
inductive Reached : Partition n → Prop
  | start {p : Partition n} (h : ofSize n = .ok p) : Reached p
  | find {p : Partition n} (a : Nat) (h : Reached p) :
    Reached (findInPlace .noElementToFind a p).2
  | union {p : Partition n} (a b : Nat) (h : Reached p) : Reached (unionInPlace a b p).2
  | resolve {p : Partition n} {α : Type} [DecidableEq α] (data : List α) (h : Reached p) :
    Reached (resolveInPlace data p).2
  | resolveSizes {p : Partition n} (h : Reached p) : Reached p.resolveSizes.2

theorem Agrees.root_eq (h : p'.Agrees p) : p'.forest.root = p.forest.root := by
  funext i
  have hfind := h.find i
  rw [find_val, find_val] at hfind
  exact Except.ok.inj hfind

theorem Agrees.sound (h : p'.Agrees p) (hp : p.Sound r) : p'.Sound r :=
  hp.of_root_eq h.root_eq h.setCount

theorem agrees_of_find (h : p.find a = .ok (i, p')) : p'.Agrees p := by
  obtain ⟨i, -, h⟩ := bind_eq_ok_iff.mp h
  cases h
  exact agrees_representative p i

theorem Sound.agrees_of_resolve {α : Type} [DecidableEq α] {data : List α} {sets : List (List α)}
    (hp : p.Sound r) (h : p.resolve data = .ok (sets, p')) : p'.Agrees p := by
  by_cases hlen : data.length = n
  · obtain ⟨_, _, hresolve, hagrees, -⟩ := hp.exists_resolve hlen
    rw [hresolve] at h
    cases h
    exact hagrees
  · rw [resolve, dif_neg hlen] at h
    cases h

/-- An accepted union joins the sets of two elements, if it is not of an index and itself. -/
theorem Sound.of_union {wereTwo : Bool} (hp : p.Sound r) (h : p.union a b = .ok (wereTwo, p')) :
    ∃ r, p'.Sound r := by
  rw [Partition.union] at h
  split at h
  · cases h
    exact ⟨r, hp⟩
  · obtain ⟨i, -, h⟩ := bind_eq_ok_iff.mp h
    obtain ⟨j, -, h⟩ := bind_eq_ok_iff.mp h
    have hunite : p.unite i j = (wereTwo, p') := Except.ok.inj h
    have hsound := (hp.unite i j).1
    rw [hunite] at hsound
    exact ⟨_, hsound⟩

/-- What is done in place keeps a partition sound if the call does so where it is accepted. -/
theorem Performs.exists_sound {held : ExceptT PartitionFault (StateM (Partition n)) β}
    {call : Partition n → Except PartitionFault (β × Partition n)} (h : Performs held call p)
    (hp : p.Sound r) (hok : ∀ answer p', call p = .ok (answer, p') → ∃ r, p'.Sound r) :
    ∃ r, (held p).2.Sound r := by
  rcases h.left_cases with ⟨answer, hcall⟩ | hagrees
  · exact hok answer _ hcall
  · exact ⟨r, hagrees.sound hp⟩

theorem Reached.exists_sound (h : Reached p) : ∃ r, p.Sound r := by
  induction h with
  | start h => exact ⟨⊥, eq_discrete_of_ofSize h ▸ discrete_sound n⟩
  | find a _ ih =>
      obtain ⟨r, hr⟩ := ih
      exact (performs_inPlace (fun p => p.find a) _).exists_sound hr fun _ _ h =>
        ⟨r, (agrees_of_find h).sound hr⟩
  | union a b _ ih =>
      obtain ⟨r, hr⟩ := ih
      exact (hr.performs_unionInPlace a b).exists_sound hr fun _ _ h => hr.of_union h
  | resolve data _ ih =>
      obtain ⟨r, hr⟩ := ih
      rw [resolveInPlace_eq]
      exact (performs_inPlace (fun p => p.resolve data) _).exists_sound hr fun _ _ h =>
        ⟨r, (hr.agrees_of_resolve h).sound hr⟩
  | resolveSizes _ ih =>
      obtain ⟨r, hr⟩ := ih
      obtain ⟨_, _, hsizes, hagrees, -⟩ := hr.exists_resolveSizes
      rw [hsizes]
      exact ⟨r, hagrees.sound hr⟩

/-- Whatever calls came before, finding and comparing are refused just if an index names no
element, and so is the union of two different indices; the first index that is out of bounds
is the one that is reported. A refused call leaves a partition that cannot be told from the
one before, also where it had found an element when it was refused. -/
theorem Reached.refused_iff (h : Reached p) (a b : Nat) :
    (∀ fault, p.find a = .error fault ↔ n ≤ a ∧ fault = .noElementToFind) ∧
      (∀ fault, p.sameSet a b = .error fault ↔
        (n ≤ a ∨ n ≤ b) ∧ fault = .noElementToCompare) ∧
      (∀ fault, p.union a b = .error fault ↔
        a ≠ b ∧ (n ≤ a ∨ n ≤ b) ∧ fault = .noElementToUnite (if n ≤ a then a else b)) ∧
      Performs (findInPlace .noElementToFind a) (fun p => p.find a) p ∧
      Performs (unionInPlace a b) (fun p => p.union a b) p := by
  obtain ⟨r, hr⟩ := h.exists_sound
  exact ⟨fun _ => find_eq_error_iff, fun _ => sameSet_eq_error_iff, fun _ => union_eq_error_iff,
    performs_inPlace _ p, hr.performs_unionInPlace a b⟩

/-- Two unions of two elements each, and one that puts the second pair below the first. -/
def stacked : Partition 4 :=
  (unionInPlace 0 2 (unionInPlace 2 3 (unionInPlace 0 1 (discrete 4)).2).2).2

/-- The find that came before the refusal has moved 3 up in its tree. -/
theorem refused_iff_stacked :
    stacked.Reached ∧ stacked.union 3 9 = .error (.noElementToUnite 9) ∧
      ∃ p', unionInPlace 3 9 stacked = (.error (.noElementToUnite 9), p') ∧ p'.Agrees stacked ∧
        stacked.forest.parent.get 3 = 2 ∧ p'.forest.parent.get 3 = 0 := by
  have hreached : stacked.Reached := .union 0 2 (.union 2 3 (.union 0 1 (.start rfl)))
  obtain ⟨-, -, hunion, -, hperforms⟩ := hreached.refused_iff 3 9
  have hrefused := (hunion (.noElementToUnite 9)).mpr ⟨by decide, by decide, rfl⟩
  obtain ⟨p', hheld, hagrees⟩ := hperforms.refused _ hrefused
  refine ⟨hreached, hrefused, p', hheld, hagrees, by decide +kernel, ?_⟩
  have hleft : p' = (unionInPlace 3 9 stacked).2 := by rw [hheld]
  rw [hleft]
  decide +kernel

/-- Uniting an index with itself is not refused, although comparing it with itself is. -/
theorem union_self_outOfBounds_accepted :
    (discrete 3).Reached ∧ (discrete 3).sameSet 5 5 = .error .noElementToCompare ∧
      ¬((∃ fault, (discrete 3).union 5 5 = .error fault) ↔ 3 ≤ 5 ∨ 3 ≤ 5) ∧
      (discrete 3).union 5 5 = .ok (false, discrete 3) ∧
      unionInPlace 5 5 (discrete 3) = (.ok false, discrete 3) :=
  ⟨.start rfl, rfl, fun h => (nomatch h.mpr (.inl (by decide))), rfl, rfl⟩

end PuzzleKit.Partition
