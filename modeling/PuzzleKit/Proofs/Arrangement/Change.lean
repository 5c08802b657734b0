import Mathlib.Data.List.Basic
import Mathlib.Data.List.InsertIdx
import PuzzleKit.Arrangement

/-!
# One change, seen from the greatest key

A change is found by looking through the whole row, but there is a shorter way
to say what it does if the row is taken apart into its greatest key and the
rest. As long as the greatest key has somebody ahead of it, it is the greatest
mobile one, and the change moves it one place and leaves the others alone.
Once it has come to the end that it is heading for, nobody can pass it, so the
rest is mobile exactly as it would be without it: the change is the one of the
rest, and the greatest key turns around.

These are `change?_insertIdx_leftward` and its mirror image for the way, and
`change?_cons` and `change?_concat` for the two ends. Everything about the
order of the arrangements is derived from the four of them.
-/

namespace PuzzleKit.Traveller

variable {row rest : List Traveller} {t u : Traveller} {i j : Nat}

/-- The same key on its way in the other direction. -/
def turn (t : Traveller) : Traveller := { t with rightward := !t.rightward }

/-! ## The greatest mobile key -/

/-- The traveller at `i` is about to move to `j`. -/
def Heads (t : Traveller) (i j : Nat) : Prop := if t.rightward then j = i + 1 else i = j + 1

theorem heads_succ : t.Heads (i + 1) (j + 1) ↔ t.Heads i j := by
  unfold Heads
  split <;> omega

theorem target?_eq_some_iff : target? row i = some j ↔ ∃ t, row[i]? = some t ∧ t.Heads i j := by
  cases ht : row[i]? with
  | none => simp [target?, ht]
  | some t =>
      cases hdir : t.rightward with
      | true =>
          simp [target?, ht, Heads, hdir]
          exact eq_comm
      | false =>
          cases i with
          | zero => simp [target?, ht, Heads, hdir]
          | succ i => simp [target?, ht, Heads, hdir]

theorem isMobile_iff :
    isMobile row i = true ↔
      ∃ t j u, row[i]? = some t ∧ t.Heads i j ∧ row[j]? = some u ∧ u.key < t.key := by
  constructor
  · intro h
    rw [isMobile] at h
    split at h
    · next t u ht hahead =>
        obtain ⟨j, hj, hu⟩ := Option.bind_eq_some_iff.mp hahead
        obtain ⟨t', ht', hheads⟩ := target?_eq_some_iff.mp hj
        cases ht.symm.trans ht'
        exact ⟨t, j, u, ht, hheads, hu, by simpa using h⟩
    · cases h
  · rintro ⟨t, j, u, ht, hheads, hu, hlt⟩
    simp [isMobile, ht, target?_eq_some_iff.mpr ⟨t, ht, hheads⟩, hu, hlt]

theorem lt_length_of_isMobile (h : isMobile row i = true) : i < row.length := by
  obtain ⟨t, -, -, ht, -⟩ := isMobile_iff.mp h
  exact (List.getElem?_eq_some_iff.mp ht).1

theorem keyLess_iff :
    keyLess row i j = true ↔ ∃ t u, row[i]? = some t ∧ row[j]? = some u ∧ t.key < u.key := by
  constructor
  · intro h
    rw [keyLess] at h
    split at h
    · next t u ht hu => exact ⟨t, u, ht, hu, by simpa using h⟩
    · cases h
  · rintro ⟨t, u, ht, hu, hlt⟩
    simp [keyLess, ht, hu, hlt]

theorem not_keyLess_of_keyLess (h : keyLess row i j = true) : ¬keyLess row j i = true := by
  obtain ⟨t, u, ht, hu, hlt⟩ := keyLess_iff.mp h
  intro h'
  obtain ⟨u', t', hu', ht', hlt'⟩ := keyLess_iff.mp h'
  cases ht.symm.trans ht'
  cases hu.symm.trans hu'
  omega

theorem greater_cases (row : List Traveller) (best : Option Nat) (i : Nat) :
    (∃ b, best = some b ∧ keyLess row i b = true ∧ greater row best i = best) ∨
      (∀ b, best = some b → ¬keyLess row i b = true) ∧ greater row best i = some i := by
  cases best with
  | none => exact Or.inr ⟨fun b hb => (by cases hb), rfl⟩
  | some b =>
      rw [greater]
      split
      · next hless => exact Or.inl ⟨b, rfl, hless, rfl⟩
      · next hless =>
          refine Or.inr ⟨fun b' hb => ?_, rfl⟩
          cases hb
          exact hless

theorem foldl_greater_mem {is : List Nat} {best : Option Nat}
    (h : is.foldl (greater row) best = some i) : best = some i ∨ i ∈ is := by
  induction is generalizing best with
  | nil => exact Or.inl h
  | cons k is ih =>
      rcases ih h with hbest | hmem
      · rcases greater_cases row best k with ⟨-, -, -, heq⟩ | ⟨-, heq⟩
        · exact Or.inl (heq ▸ hbest)
        · cases heq.symm.trans hbest
          exact Or.inr List.mem_cons_self
      · exact Or.inr (List.mem_cons_of_mem k hmem)

/-- A position with a greater key than all others wins, wherever it comes. -/
theorem foldl_greater_eq {is : List Nat} {best : Option Nat} (hmem : best = some i ∨ i ∈ is)
    (hbest : ∀ j, best = some j → j ≠ i → keyLess row j i = true)
    (hrest : ∀ j ∈ is, j ≠ i → keyLess row j i = true) :
    is.foldl (greater row) best = some i := by
  induction is generalizing best with
  | nil => exact hmem.resolve_right List.not_mem_nil
  | cons k is ih =>
      rw [List.foldl_cons]
      rcases greater_cases row best k with ⟨b, rfl, hless, heq⟩ | ⟨hnot, heq⟩ <;> rw [heq]
      · refine ih ?_ hbest fun j hj => hrest j (List.mem_cons_of_mem k hj)
        rcases hmem with hb | hmem
        · exact Or.inl hb
        · rcases List.mem_cons.mp hmem with rfl | hmem
          · by_cases hbi : b = i
            · exact Or.inl (congrArg some hbi)
            · exact absurd (hbest b rfl hbi) (not_keyLess_of_keyLess hless)
          · exact Or.inr hmem
      · refine ih ?_ (fun j hj => ?_) fun j hj => hrest j (List.mem_cons_of_mem k hj)
        · by_cases hki : k = i
          · exact Or.inl (congrArg some hki)
          · rcases hmem with hb | hmem
            · exact absurd (hrest k List.mem_cons_self hki) (hnot i hb)
            · exact Or.inr ((List.mem_cons.mp hmem).resolve_left (Ne.symm hki))
        · cases hj
          exact hrest k List.mem_cons_self

theorem isMobile_of_greatestMobile? (h : greatestMobile? row = some i) :
    isMobile row i = true := by
  rcases foldl_greater_mem h with hnone | hmem
  · cases hnone
  · exact (List.mem_filter.mp hmem).2

theorem greatestMobile?_eq_some (hi : isMobile row i = true)
    (h : ∀ j, isMobile row j = true → j ≠ i → keyLess row j i = true) :
    greatestMobile? row = some i := by
  refine foldl_greater_eq (Or.inr ?_) (fun j hj => by cases hj) fun j hj => ?_
  · exact List.mem_filter.mpr ⟨List.mem_range.mpr (lt_length_of_isMobile hi), hi⟩
  · exact h j (List.mem_filter.mp hj).2

/-- What a change does, once it is known who moves and where. -/
theorem change?_eq_some (hi : greatestMobile? row = some i) (ht : row[i]? = some t)
    (hj : t.Heads i j) (hu : row[j]? = some u) :
    change? row = some (((row.set i u).set j t).map (turnIfAbove t.key)) := by
  simp [change?, hi, target?_eq_some_iff.mpr ⟨t, ht, hj⟩, ht, hu]

theorem change?_eq_none (h : greatestMobile? row = none) : change? row = none := by
  simp [change?, h]

/-! ## The greatest key on its way -/

theorem turnIfAbove_of_le {key : Nat} (h : u.key ≤ key) : turnIfAbove key u = u := by
  rw [turnIfAbove, if_neg (by omega)]

theorem turnIfAbove_of_lt {key : Nat} (h : key < u.key) : turnIfAbove key u = u.turn := by
  rw [turnIfAbove, if_pos h, turn]

/-- If the greatest key is mobile, it is the one to move. -/
theorem greatestMobile?_insertIdx (hbelow : ∀ u ∈ rest, u.key < t.key) (hi : i ≤ rest.length)
    (hmobile : isMobile (rest.insertIdx i t) i = true) :
    greatestMobile? (rest.insertIdx i t) = some i := by
  refine greatestMobile?_eq_some hmobile fun j hj hne => ?_
  obtain ⟨u, -, -, hu, -⟩ := isMobile_iff.mp hj
  have ht : (rest.insertIdx i t)[i]? = some t := by
    rw [List.getElem?_insertIdx_self, if_pos hi]
  have hmem : u ∈ rest := by
    rw [List.getElem?_insertIdx] at hu
    split at hu
    · exact List.mem_of_getElem? hu
    · exact List.mem_of_getElem? (by simpa [hne] using hu)
  exact keyLess_iff.mpr ⟨u, t, hu, ht, hbelow u hmem⟩

/-- The move of the greatest key past a neighbour leaves everybody's direction
alone. -/
theorem change?_insertIdx (hbelow : ∀ u ∈ rest, u.key < t.key) (hi : i ≤ rest.length)
    (hj : t.Heads i j) (hu : (rest.insertIdx i t)[j]? = some u) (hmem : u ∈ rest) :
    change? (rest.insertIdx i t) = some (((rest.insertIdx i t).set i u).set j t) := by
  have ht : (rest.insertIdx i t)[i]? = some t := by
    rw [List.getElem?_insertIdx_self, if_pos hi]
  have hmobile : isMobile (rest.insertIdx i t) i = true :=
    isMobile_iff.mpr ⟨t, j, u, ht, hj, hu, hbelow u hmem⟩
  rw [change?_eq_some (greatestMobile?_insertIdx hbelow hi hmobile) ht hj hu]
  refine congrArg some ((List.map_congr_left fun v hv => ?_).trans (List.map_id _))
  refine turnIfAbove_of_le ?_
  rcases List.mem_or_eq_of_mem_set hv with hv | rfl
  · rcases List.mem_or_eq_of_mem_set hv with hv | rfl
    · rcases List.eq_or_mem_of_mem_insertIdx hv with rfl | hv
      · exact Nat.le_refl _
      · exact Nat.le_of_lt (hbelow v hv)
    · exact Nat.le_of_lt (hbelow v hmem)
  · exact Nat.le_refl _

theorem change?_insertIdx_leftward (hdir : t.rightward = false)
    (hbelow : ∀ u ∈ rest, u.key < t.key) (hi : i < rest.length) :
    change? (rest.insertIdx (i + 1) t) = some (rest.insertIdx i t) := by
  have hheads : t.Heads (i + 1) i := by rw [Heads, hdir]; simp
  have hu : (rest.insertIdx (i + 1) t)[i]? = some rest[i] := by
    rw [List.getElem?_insertIdx_of_lt (by omega), List.getElem?_eq_getElem hi]
  rw [change?_insertIdx hbelow hi hheads hu (List.getElem_mem hi)]
  refine congrArg some (List.ext_getElem? fun k => ?_)
  simp only [List.getElem?_set, List.getElem?_insertIdx, List.length_set, List.length_insertIdx]
  grind

theorem change?_insertIdx_rightward (hdir : t.rightward = true)
    (hbelow : ∀ u ∈ rest, u.key < t.key) (hi : i < rest.length) :
    change? (rest.insertIdx i t) = some (rest.insertIdx (i + 1) t) := by
  have hheads : t.Heads i (i + 1) := by rw [Heads, hdir]; simp
  have hu : (rest.insertIdx i t)[i + 1]? = some rest[i] := by
    rw [List.getElem?_insertIdx_of_gt (by omega), Nat.add_sub_cancel,
      List.getElem?_eq_getElem hi]
  rw [change?_insertIdx hbelow (Nat.le_of_lt hi) hheads hu (List.getElem_mem hi)]
  refine congrArg some (List.ext_getElem? fun k => ?_)
  simp only [List.getElem?_set, List.getElem?_insertIdx, List.length_set, List.length_insertIdx]
  grind

/-! ## The greatest key at its end -/

/-- A row with the same mobile keys at other positions has the same greatest
one. -/
theorem greatestMobile?_map {row' : List Traveller} {place : Nat → Nat}
    (hmobile : (List.range row'.length).filter (isMobile row') =
      ((List.range row.length).filter (isMobile row)).map place)
    (hless : ∀ i j, i < row.length → j < row.length →
      keyLess row' (place i) (place j) = keyLess row i j) :
    greatestMobile? row' = (greatestMobile? row).map place := by
  have hfold : ∀ (is : List Nat) (best : Option Nat), (∀ i ∈ is, i < row.length) →
      (∀ b, best = some b → b < row.length) →
      (is.map place).foldl (greater row') (best.map place) =
        (is.foldl (greater row) best).map place := by
    -- The positions are looked through from the left, with the best so far in hand.
    intro is
    induction is with
    | nil => intro best _ _; rfl
    | cons k is ih =>
        intro best his hbest
        have hk := his k List.mem_cons_self
        have hstep : greater row' (best.map place) (place k) =
            (greater row best k).map place := by
          cases best with
          | none => rfl
          | some b =>
              simp only [Option.map_some, greater, hless k b hk (hbest b rfl)]
              split <;> rfl
        rw [List.map_cons, List.foldl_cons, List.foldl_cons, hstep]
        refine ih _ (fun i hi => his i (List.mem_cons_of_mem k hi)) fun b hb => ?_
        rcases greater_cases row best k with ⟨-, -, -, heq⟩ | ⟨-, heq⟩ <;> rw [heq] at hb
        · exact hbest b hb
        · cases hb
          exact hk
  rw [greatestMobile?, hmobile]
  exact hfold _ none (fun i hi => List.mem_range.mp (List.mem_filter.mp hi).1)
    fun b hb => by cases hb

theorem isMobile_cons_succ (hbelow : ∀ u ∈ rest, u.key < t.key) (i : Nat) :
    isMobile (t :: rest) (i + 1) = isMobile rest i := by
  rw [Bool.eq_iff_iff, isMobile_iff, isMobile_iff]
  constructor
  · rintro ⟨v, j, u, hv, hheads, hu, hlt⟩
    cases j with
    | zero =>
        cases hu
        have := hbelow v (List.mem_of_getElem? hv)
        omega
    | succ j => exact ⟨v, j, u, hv, heads_succ.mp hheads, hu, hlt⟩
  · rintro ⟨v, j, u, hv, hheads, hu, hlt⟩
    exact ⟨v, j + 1, u, hv, heads_succ.mpr hheads, hu, hlt⟩

theorem greatestMobile?_cons (hdir : t.rightward = false)
    (hbelow : ∀ u ∈ rest, u.key < t.key) :
    greatestMobile? (t :: rest) = (greatestMobile? rest).map (· + 1) := by
  refine greatestMobile?_map ?_ fun i j _ _ => by simp [keyLess]
  have hzero : isMobile (t :: rest) 0 = false := by simp [isMobile, target?, hdir]
  rw [List.length_cons, List.range_succ_eq_map, List.filter_cons, hzero, if_neg (by decide),
    List.filter_map]
  refine congrArg (List.map _) (List.filter_congr fun i _ => ?_)
  exact isMobile_cons_succ hbelow i

/-- At the left end the greatest key lets the rest change, and turns. -/
theorem change?_cons (hdir : t.rightward = false) (hbelow : ∀ u ∈ rest, u.key < t.key) :
    change? (t :: rest) = (change? rest).map (t.turn :: ·) := by
  have hgreatest := greatestMobile?_cons hdir hbelow
  cases hi : greatestMobile? rest with
  | none =>
      rw [hi] at hgreatest
      rw [change?_eq_none hi, change?_eq_none hgreatest, Option.map_none]
  | some i =>
      rw [hi] at hgreatest
      obtain ⟨v, j, u, hv, hj, hu, -⟩ := isMobile_iff.mp (isMobile_of_greatestMobile? hi)
      have hsucc : (t :: rest)[i + 1]? = some v ∧ (t :: rest)[j + 1]? = some u := ⟨hv, hu⟩
      rw [change?_eq_some hi hv hj hu,
        change?_eq_some hgreatest hsucc.1 (heads_succ.mpr hj) hsucc.2]
      simp [turnIfAbove_of_lt (hbelow v (List.mem_of_getElem? hv))]

theorem isMobile_concat (hbelow : ∀ u ∈ rest, u.key < t.key) (hi : i < rest.length) :
    isMobile (rest ++ [t]) i = isMobile rest i := by
  rw [Bool.eq_iff_iff, isMobile_iff, isMobile_iff]
  constructor
  · rintro ⟨v, j, u, hv, hheads, hu, hlt⟩
    rw [List.getElem?_append_left hi] at hv
    rw [List.getElem?_append] at hu
    split at hu
    · exact ⟨v, j, u, hv, hheads, hu, hlt⟩
    · cases List.mem_singleton.mp (List.mem_of_getElem? hu)
      have := hbelow v (List.mem_of_getElem? hv)
      omega
  · rintro ⟨v, j, u, hv, hheads, hu, hlt⟩
    have hj := (List.getElem?_eq_some_iff.mp hu).1
    refine ⟨v, j, u, ?_, hheads, ?_, hlt⟩
    · rw [List.getElem?_append_left hi]; exact hv
    · rw [List.getElem?_append_left hj]; exact hu

theorem greatestMobile?_concat (hdir : t.rightward = true)
    (hbelow : ∀ u ∈ rest, u.key < t.key) :
    greatestMobile? (rest ++ [t]) = greatestMobile? rest := by
  have hlast : isMobile (rest ++ [t]) rest.length = false := by
    simp [isMobile, target?, hdir]
  have hmobile : (List.range (rest ++ [t]).length).filter (isMobile (rest ++ [t])) =
      ((List.range rest.length).filter (isMobile rest)).map id := by
    rw [List.map_id, List.length_append, List.length_singleton, List.range_succ,
      List.filter_append, List.filter_cons_of_neg (by simp [hlast]), List.filter_nil,
      List.append_nil]
    exact List.filter_congr fun i hi => isMobile_concat hbelow (List.mem_range.mp hi)
  refine (greatestMobile?_map hmobile fun i j hi hj => ?_).trans (congrFun Option.map_id _)
  simp [keyLess, List.getElem?_append_left hi, List.getElem?_append_left hj]

/-- At the right end, too. -/
theorem change?_concat (hdir : t.rightward = true) (hbelow : ∀ u ∈ rest, u.key < t.key) :
    change? (rest ++ [t]) = (change? rest).map (· ++ [t.turn]) := by
  have hgreatest := greatestMobile?_concat hdir hbelow
  cases hi : greatestMobile? rest with
  | none =>
      rw [hi] at hgreatest
      rw [change?_eq_none hi, change?_eq_none hgreatest, Option.map_none]
  | some i =>
      rw [hi] at hgreatest
      obtain ⟨v, j, u, hv, hj, hu, -⟩ := isMobile_iff.mp (isMobile_of_greatestMobile? hi)
      have hilt := (List.getElem?_eq_some_iff.mp hv).1
      have hjlt := (List.getElem?_eq_some_iff.mp hu).1
      rw [change?_eq_some hi hv hj hu, change?_eq_some hgreatest
        ((List.getElem?_append_left hilt).trans hv) hj ((List.getElem?_append_left hjlt).trans hu)]
      rw [List.set_append_left _ _ hilt, List.set_append_left _ _ (by simpa using hjlt)]
      simp [turnIfAbove_of_lt (hbelow v (List.mem_of_getElem? hv))]

end PuzzleKit.Traveller
