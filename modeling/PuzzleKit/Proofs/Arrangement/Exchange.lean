import PuzzleKit.Proofs.Arrangement.Order

/-!
# From one arrangement to the next

The order of the arrangements is a recursion on the number of keys: the `k`th
arrangement of the keys below `n` is taken through all places for the key `n`, to
the left if `k` is even and to the right if it is odd. That is what `zigzag` does
with a direction instead of a number (`plainChanges_succ`).

Between two arrangements of the order there is one change, and of a change it can be
said for any row at all that it exchanges two neighbours. The mobile key has its
target in the row, which is why it is mobile, so a change is only ever refused
because no key is mobile and never because a position is outside the row
(`change?_eq_none_iff`).
-/

namespace PuzzleKit.Traveller

/-! ## The recursion -/

theorem zigzag_eq_flatMap {α : Type} (a : Bool → α) (ls : List (List α)) (k : Nat) :
    zigzag a (k % 2 = 1) ls =
      (ls.zipIdx k).flatMap fun entry =>
        sweep (a (entry.2 % 2 = 1)) (entry.2 % 2 = 1) entry.1 := by
  induction ls generalizing k with
  | nil => rfl
  | cons l ls ih =>
      have hturn : (!decide (k % 2 = 1)) = decide ((k + 1) % 2 = 1) := by
        rcases Nat.mod_two_eq_zero_or_one k with hk | hk <;> simp [Nat.add_mod, hk]
      rw [zigzag, hturn, ih, List.zipIdx_cons, List.flatMap_cons]

theorem plainChanges_succ (n : Nat) :
    plainChanges (n + 1) = (plainChanges n).zipIdx.flatMap fun entry =>
      if entry.2 % 2 = 0 then (insertions n entry.1).reverse else insertions n entry.1 := by
  rw [plainChanges]
  refine (zigzag_eq_flatMap (fun _ => n) (plainChanges n) 0).trans ?_
  refine congrArg (List.flatMap · _) (funext fun entry => ?_)
  rcases Nat.mod_two_eq_zero_or_one entry.2 with hk | hk <;> simp [sweep, hk]

/-! ## Exchanges -/

section Exchanges

variable {α β : Type} {a b : List α}

/-- Two neighbours have changed places. -/
def Exchanged (a b : List α) : Prop :=
  ∃ before x y after, a = before ++ x :: y :: after ∧ b = before ++ y :: x :: after

theorem exchanged_set {i : Nat} {x y : α} (hx : a[i]? = some x) (hy : a[i + 1]? = some y) :
    Exchanged a ((a.set i y).set (i + 1) x) := by
  induction i generalizing a with
  | zero =>
      match a, hx, hy with
      | _ :: _ :: after, rfl, rfl => exact ⟨[], x, y, after, rfl, rfl⟩
  | succ i ih =>
      cases a with
      | nil => cases hx
      | cons z a =>
          obtain ⟨before, u, v, after, ha, hb⟩ := ih hx hy
          exact ⟨z :: before, u, v, after, congrArg (z :: ·) ha, congrArg (z :: ·) hb⟩

theorem Exchanged.filterMap {f : α → Option β} (hf : ∀ x ∈ a, (f x).isSome)
    (h : Exchanged a b) : Exchanged (a.filterMap f) (b.filterMap f) := by
  obtain ⟨before, x, y, after, rfl, rfl⟩ := h
  obtain ⟨u, hu⟩ := Option.isSome_iff_exists.mp (hf x (by simp))
  obtain ⟨v, hv⟩ := Option.isSome_iff_exists.mp (hf y (by simp))
  exact ⟨before.filterMap f, u, v, after.filterMap f, by simp [hu, hv], by simp [hu, hv]⟩

end Exchanges

/-! ## What a change does -/

section Change

variable {row row' : List Traveller} {i j : Nat}

/-- The greatest mobile key has a neighbour in the row to exchange places with. -/
theorem exists_neighbor (hi : greatestMobile? row = some i) :
    ∃ t j u, row[i]? = some t ∧ t.Heads i j ∧ row[j]? = some u ∧
      change? row = some (((row.set i u).set j t).map (turnIfAbove t.key)) := by
  obtain ⟨t, j, u, ht, hj, hu, -⟩ := isMobile_iff.mp (isMobile_of_greatestMobile? hi)
  exact ⟨t, j, u, ht, hj, hu, change?_eq_some hi ht hj hu⟩

theorem change?_eq_none_iff : change? row = none ↔ greatestMobile? row = none := by
  refine ⟨fun h => ?_, change?_eq_none⟩
  cases hi : greatestMobile? row with
  | none => rfl
  | some i =>
      obtain ⟨_, _, _, _, _, _, hchange⟩ := exists_neighbor hi
      rw [hchange] at h
      cases h

theorem key_turnIfAbove (k : Nat) (t : Traveller) : (turnIfAbove k t).key = t.key := by
  rw [turnIfAbove]
  split <;> rfl

/-- Whatever the row, a change exchanges the keys of two neighbours. -/
theorem exchanged_of_change? (h : change? row = some row') :
    Exchanged (row.map key) (row'.map key) := by
  obtain ⟨i, hi⟩ := Option.ne_none_iff_exists'.mp fun hnone => by
    rw [change?_eq_none hnone] at h
    cases h
  obtain ⟨t, j, u, ht, hj, hu, hchange⟩ := exists_neighbor hi
  cases h.symm.trans hchange
  have ht : (row.map key)[i]? = some t.key := by rw [List.getElem?_map, ht]; rfl
  have hu : (row.map key)[j]? = some u.key := by rw [List.getElem?_map, hu]; rfl
  have hkeys : (((row.set i u).set j t).map (turnIfAbove t.key)).map key =
      ((row.map key).set i u.key).set j t.key := by
    rw [List.map_map, ← List.map_set, ← List.map_set]
    exact List.map_congr_left fun v _ => key_turnIfAbove t.key v
  rw [hkeys]
  unfold Heads at hj
  split at hj
  · subst hj
    exact exchanged_set ht hu
  · subst hj
    rw [List.set_comm _ _ (Nat.succ_ne_self j)]
    exact exchanged_set hu ht

end Change

theorem Unfolds.isChain {row : Option (List Traveller)} {rows : List (List Traveller)}
    (h : Unfolds row rows) : rows.IsChain fun a b => change? a = some b := by
  induction h with
  | nil => exact .nil
  | @cons row rows h ih =>
      cases rows with
      | nil => exact .singleton row
      | cons next rows => exact .cons_cons h.head?.symm ih

theorem isChain_plainChanges (n : Nat) : (plainChanges n).IsChain Exchanged := by
  rw [← keys_rows, List.isChain_map]
  exact (unfolds_rows n).isChain.imp fun _ _ => exchanged_of_change?

/-- Everything that is looked up for an arrangement of so many items and for the
change after it is there: the items of the keys, the neighbour to the left of a
position, and the two positions of the exchange. -/
structure InBounds (bound : Nat) (row : List Traveller) : Prop where
  length_eq : row.length = bound
  key_lt : ∀ t ∈ row, t.key < bound
  left_lt : ∀ i t j, row[i]? = some t → t.rightward = false → target? row i = some j →
    j < row.length
  mover_lt : ∀ i, greatestMobile? row = some i →
    i < row.length ∧ ∃ j, target? row i = some j ∧ j < row.length
  refused : change? row = none → greatestMobile? row = none

theorem inBounds_of_mem_rows {n : Nat} {row : List Traveller} (h : row ∈ rows n) :
    InBounds n row where
  length_eq := by
    have hkeys : row.map key ∈ plainChanges n := keys_rows n ▸ List.mem_map_of_mem h
    rw [← List.length_map key, (perm_of_mem_plainChanges hkeys).length_eq, List.length_range]
  key_lt := key_lt_of_mem_rows h
  left_lt i t j ht hdir hj := by
    obtain ⟨t', ht', hheads⟩ := target?_eq_some_iff.mp hj
    cases ht.symm.trans ht'
    have hi := (List.getElem?_eq_some_iff.mp ht).1
    rw [Heads, hdir] at hheads
    simp only [Bool.false_eq_true, if_false] at hheads
    omega
  mover_lt i hi := by
    obtain ⟨t, j, u, ht, hj, hu, -⟩ := exists_neighbor hi
    exact ⟨(List.getElem?_eq_some_iff.mp ht).1, j, target?_eq_some_iff.mpr ⟨t, ht, hj⟩,
      (List.getElem?_eq_some_iff.mp hu).1⟩
  refused := change?_eq_none_iff.mp

end PuzzleKit.Traveller

namespace PuzzleKit.Arrangements

open Traveller

variable {α : Type}

theorem exchanged_arranged {items : List α} {row row' : List Traveller}
    (hkeys : ∀ t ∈ row, t.key < items.length) (h : change? row = some row') :
    Exchanged (arranged items row) (arranged items row') := by
  have harranged : ∀ row : List Traveller,
      arranged items row = (row.map key).filterMap fun k => items[k]? := fun row =>
    List.filterMap_map.symm
  rw [harranged, harranged]
  refine (exchanged_of_change? h).filterMap fun k hk => ?_
  obtain ⟨t, ht, rfl⟩ := List.mem_map.mp hk
  rw [List.getElem?_eq_getElem (hkeys t ht)]
  rfl

/-- The arrangements of a sequence come in the order of plain changes: call by call
the row of keys and the items that are handed out are those of the recursion on the
number of keys, and there are none once it is through. So one arrangement comes from
the one before it by an exchange of neighbours, and all that is looked up on the way
is there. -/
theorem next?_plainChanges (items : List α) :
    plainChanges 0 = [[]] ∧
      (∀ n, plainChanges (n + 1) = (plainChanges n).zipIdx.flatMap fun entry =>
        if entry.2 % 2 = 0 then (insertions n entry.1).reverse else insertions n entry.1) ∧
      (∀ k, ((ofList items).drop k).row.map (List.map key) = (plainChanges items.length)[k]?) ∧
      (∀ k, (((ofList items).drop k).next?.map fun (arranged, _) => arranged.map some) =
        (plainChanges items.length)[k]?.map fun order => order.map fun key => items[key]?) ∧
      (plainChanges items.length).IsChain Exchanged ∧
      (∀ k a b rest rest', ((ofList items).drop k).next? = some (a, rest) →
        rest.next? = some (b, rest') → Exchanged a b) ∧
      ∀ k row, ((ofList items).drop k).row = some row → InBounds items.length row := by
  have hdrop : ∀ k, (ofList items).drop k = ⟨items, (rows items.length)[k]?⟩ := fun k =>
    drop_eq (a := ofList items) (unfolds_rows items.length) k
  have hlt : ∀ {k : Nat} {row : List Traveller}, (rows items.length)[k]? = some row →
      ∀ t ∈ row, t.key < items.length :=
    fun hrow => key_lt_of_mem_rows (List.mem_of_getElem? hrow)
  refine ⟨rfl, plainChanges_succ, fun k => ?_, fun k => ?_, isChain_plainChanges _, ?_, ?_⟩
  · rw [hdrop, ← keys_rows, List.getElem?_map]
  · rw [hdrop, ← keys_rows, List.getElem?_map]
    cases hrow : (rows items.length)[k]? with
    | none => rfl
    | some row =>
        exact congrArg some ((map_some_arranged (hlt hrow)).trans List.map_map.symm)
  · intro k a b rest rest' ha hb
    rw [hdrop] at ha
    cases hrow : (rows items.length)[k]? with
    | none => rw [hrow] at ha; cases ha
    | some row =>
        rw [hrow] at ha
        cases ha
        obtain ⟨row', hrow', hb⟩ := Option.bind_eq_some_iff.mp hb
        cases hb
        exact exchanged_arranged (hlt hrow) hrow'
  · intro k row hrow
    rw [hdrop] at hrow
    exact inBounds_of_mem_rows (List.mem_of_getElem? hrow)

end PuzzleKit.Arrangements
