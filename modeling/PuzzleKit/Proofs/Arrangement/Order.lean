import Mathlib.Data.List.Chain
import Mathlib.Data.List.Permutation
import Mathlib.Data.List.Range
import PuzzleKit.Proofs.Arrangement.Change

/-!
# The order of the arrangements

The arrangements of `n + 1` keys come about from those of `n` keys: the new key
goes through every place of the first of them from the right to the left,
through those of the second from the left to the right, and so on. `rows`
builds the list in this way, directions included, and `unfolds_rows` says that
the changes of the initial row run through it from its first row to its last
and then stop. The proof needs no more than the four cases of a change in which
the greatest key is moved or turned.

That all permutations are in the list, and that it is `n!` long, are inductions
over its construction. That none of them comes twice follows by counting: a
list of `n!` rows in which `n!` different ones occur has no room for a second
copy of any.
-/

namespace PuzzleKit.Traveller

/-- The rows from a row on, each the change of the one before, up to a row that
has no change. -/
inductive Unfolds : Option (List Traveller) → List (List Traveller) → Prop
  | nil : Unfolds none []
  | cons {row : List Traveller} {rows : List (List Traveller)} (h : Unfolds (change? row) rows) :
    Unfolds (some row) (row :: rows)

theorem Unfolds.head? {row : Option (List Traveller)} {rows : List (List Traveller)}
    (h : Unfolds row rows) : rows.head? = row := by
  cases h <;> rfl

/-- A chain of changes can be put before the rows that its last one unfolds to. -/
theorem Unfolds.append {row last : List Traveller} {rows rest : List (List Traveller)}
    (hchain : (row :: rows).IsChain fun a b => change? a = some b)
    (hlast : (row :: rows).getLast? = some last) (h : Unfolds (change? last) rest) :
    Unfolds (some row) (row :: rows ++ rest) := by
  induction rows generalizing row with
  | nil =>
      cases hlast
      exact .cons h
  | cons next rows ih =>
      obtain ⟨hnext, hchain⟩ := List.isChain_cons_cons.mp hchain
      refine .cons ?_
      rw [hnext]
      exact ih hchain (by rwa [List.getLast?_cons_cons] at hlast)

/-! ## Every place of a row -/

section Places

variable {α β : Type}

/-- The lists that come from putting an item at each place of a list, from the
left to the right. -/
def insertions (a : α) (l : List α) : List (List α) :=
  (List.range (l.length + 1)).map fun i => l.insertIdx i a

/-- The item goes through the places in one direction or the other. -/
def sweep (a : α) (rightward : Bool) (l : List α) : List (List α) :=
  if rightward then insertions a l else (insertions a l).reverse

/-- The item goes to and fro through the places of one list after another. It
may be a different one for each direction. -/
def zigzag (a : Bool → α) : Bool → List (List α) → List (List α)
  | _, [] => []
  | rightward, l :: ls => sweep (a rightward) rightward l ++ zigzag a (!rightward) ls

/-- The place that a sweep starts at. -/
def entry (a : α) (rightward : Bool) (l : List α) : List α :=
  if rightward then a :: l else l ++ [a]

theorem head?_insertions (a : α) (l : List α) : (insertions a l).head? = some (a :: l) := by
  rw [insertions, List.range_succ_eq_map, List.map_cons, List.head?_cons, List.insertIdx_zero]

theorem getLast?_insertions (a : α) (l : List α) :
    (insertions a l).getLast? = some (l ++ [a]) := by
  rw [insertions, List.range_succ, List.map_append, List.map_singleton, List.getLast?_concat,
    List.insertIdx_length_self]

theorem head?_sweep (a : α) (rightward : Bool) (l : List α) :
    (sweep a rightward l).head? = some (entry a rightward l) := by
  cases rightward with
  | true => exact head?_insertions a l
  | false => exact List.head?_reverse.trans (getLast?_insertions a l)

/-- A sweep ends where one in the other direction starts. -/
theorem getLast?_sweep (a : α) (rightward : Bool) (l : List α) :
    (sweep a rightward l).getLast? = some (entry a (!rightward) l) := by
  cases rightward with
  | true => exact getLast?_insertions a l
  | false => exact List.getLast?_reverse.trans (head?_insertions a l)

theorem mem_sweep {a : α} {rightward : Bool} {l x : List α} :
    x ∈ sweep a rightward l ↔ ∃ i, i ≤ l.length ∧ l.insertIdx i a = x := by
  have h : x ∈ insertions a l ↔ ∃ i, i ≤ l.length ∧ l.insertIdx i a = x := by
    simp only [insertions, List.mem_map, List.mem_range, Nat.lt_succ_iff]
  cases rightward with
  | true => exact h
  | false => exact List.mem_reverse.trans h

theorem insertIdx_length_append (a : α) (before after : List α) :
    (before ++ after).insertIdx before.length a = before ++ a :: after := by
  induction before with
  | nil => rfl
  | cons b before ih =>
      rw [List.cons_append, List.length_cons, List.insertIdx_succ_cons, ih, List.cons_append]

theorem length_sweep (a : α) (rightward : Bool) (l : List α) :
    (sweep a rightward l).length = l.length + 1 := by
  cases rightward <;> simp [sweep, insertions]

theorem mem_zigzag {a : Bool → α} {rightward : Bool} {ls : List (List α)} {x : List α}
    (h : x ∈ zigzag a rightward ls) :
    ∃ l ∈ ls, ∃ d i, i ≤ l.length ∧ l.insertIdx i (a d) = x := by
  induction ls generalizing rightward with
  | nil => cases h
  | cons l ls ih =>
      rcases List.mem_append.mp h with h | h
      · obtain ⟨i, hi, hx⟩ := mem_sweep.mp h
        exact ⟨l, List.mem_cons_self, rightward, i, hi, hx⟩
      · obtain ⟨l', hl', hx⟩ := ih h
        exact ⟨l', List.mem_cons_of_mem l hl', hx⟩

theorem mem_zigzag_const {a : α} {rightward : Bool} {ls : List (List α)} {l : List α} {i : Nat}
    (hl : l ∈ ls) (hi : i ≤ l.length) : l.insertIdx i a ∈ zigzag (fun _ => a) rightward ls := by
  induction ls generalizing rightward with
  | nil => cases hl
  | cons l' ls ih =>
      rcases List.mem_cons.mp hl with rfl | hl
      · exact List.mem_append_left _ (mem_sweep.mpr ⟨i, hi, rfl⟩)
      · exact List.mem_append_right _ (ih hl)

theorem length_zigzag {a : Bool → α} {rightward : Bool} {ls : List (List α)} {n : Nat}
    (h : ∀ l ∈ ls, l.length = n) :
    (zigzag a rightward ls).length = (n + 1) * ls.length := by
  induction ls generalizing rightward with
  | nil => rfl
  | cons l ls ih =>
      rw [zigzag, List.length_append, length_sweep, h l List.mem_cons_self,
        ih fun l' hl' => h l' (List.mem_cons_of_mem l hl'), List.length_cons, Nat.mul_succ,
        Nat.add_comm]

theorem map_zigzag (f : α → β) (a : Bool → α) (rightward : Bool) (ls : List (List α)) :
    (zigzag a rightward ls).map (List.map f) =
      zigzag (fun d => f (a d)) rightward (ls.map (List.map f)) := by
  have hinsertions : ∀ (b : α) (l : List α),
      (insertions b l).map (List.map f) = insertions (f b) (l.map f) := by
    intro b l
    simp [insertions, List.map_insertIdx]
  induction ls generalizing rightward with
  | nil => rfl
  | cons l ls ih =>
      rw [zigzag, List.map_append, ih, List.map_cons, zigzag]
      refine congrArg (· ++ _) ?_
      cases rightward with
      | true => exact hinsertions _ l
      | false => rw [sweep, sweep]; simp [hinsertions]

end Places

/-! ## The rows -/

/-- The rows of `n` keys in their order. -/
def rows : Nat → List (List Traveller)
  | 0 => [[]]
  | n + 1 => zigzag (Traveller.mk n) false (rows n)

/-- The arrangements of `n` keys in their order. -/
def plainChanges : Nat → List (List Nat)
  | 0 => [[]]
  | n + 1 => zigzag (fun _ => n) false (plainChanges n)

theorem keys_rows (n : Nat) : (rows n).map (List.map key) = plainChanges n := by
  induction n with
  | zero => rfl
  | succ n ih => rw [rows, map_zigzag, ih, plainChanges]

theorem key_lt_of_mem_rows {n : Nat} {row : List Traveller} (hrow : row ∈ rows n) :
    ∀ t ∈ row, t.key < n := by
  induction n generalizing row with
  | zero => cases List.mem_singleton.mp hrow; simp
  | succ n ih =>
      obtain ⟨rest, hrest, d, i, -, rfl⟩ := mem_zigzag hrow
      intro t ht
      rcases List.eq_or_mem_of_mem_insertIdx ht with rfl | ht
      · exact Nat.lt_succ_self n
      · exact Nat.lt_succ_of_lt (ih hrest t ht)

section Unfold

variable {rest : List Traveller} {t : Traveller}

theorem isChain_sweep (hbelow : ∀ u ∈ rest, u.key < t.key) :
    (sweep t t.rightward rest).IsChain fun a b => change? a = some b := by
  cases hdir : t.rightward with
  | true =>
      rw [sweep, if_pos rfl, insertions, List.isChain_map, List.isChain_range_succ]
      exact fun i hi => change?_insertIdx_rightward hdir hbelow hi
  | false =>
      rw [sweep, if_neg (by decide), insertions, List.isChain_reverse, List.isChain_map,
        List.isChain_range_succ]
      exact fun i hi => change?_insertIdx_leftward hdir hbelow hi

theorem change?_entry (hbelow : ∀ u ∈ rest, u.key < t.key) :
    change? (entry t (!t.rightward) rest) =
      (change? rest).map (entry t.turn (!t.rightward)) := by
  cases hdir : t.rightward with
  | true => exact change?_concat hdir hbelow
  | false => exact change?_cons hdir hbelow

/-- While the rest unfolds to some rows, a key above them all goes to and fro
through their places. -/
theorem unfolds_zigzag {n : Nat} {row : Option (List Traveller)} {ls : List (List Traveller)}
    (h : Unfolds row ls) (hbelow : ∀ l ∈ ls, ∀ t ∈ l, t.key < n) (rightward : Bool) :
    Unfolds (row.map (entry ⟨n, rightward⟩ rightward)) (zigzag (Traveller.mk n) rightward ls) := by
  induction h generalizing rightward with
  | nil => exact .nil
  | @cons rest ls _ ih =>
      have hrest := hbelow rest List.mem_cons_self
      have hchain := isChain_sweep (t := ⟨n, rightward⟩) hrest
      have hhead := head?_sweep (Traveller.mk n rightward) rightward rest
      have hlast := getLast?_sweep (Traveller.mk n rightward) rightward rest
      obtain ⟨row, rows, hsweep⟩ : ∃ row rows,
          sweep ⟨n, rightward⟩ rightward rest = row :: rows :=
        List.exists_cons_of_ne_nil fun hnil => by rw [hnil] at hhead; cases hhead
      -- The sweep is a chain of changes. At its end the key turns and the rest
      -- goes on to its own next row, where the next sweep starts.
      simp only [] at hchain
      rw [zigzag, hsweep]
      rw [hsweep] at hchain hhead hlast
      cases hhead
      refine Unfolds.append hchain hlast ?_
      rw [change?_entry (t := ⟨n, rightward⟩) hrest]
      exact ih (fun l hl => hbelow l (List.mem_cons_of_mem rest hl)) (!rightward)

end Unfold

/-- The changes of the initial row run through all rows, and then there is none. -/
theorem unfolds_rows (n : Nat) : Unfolds (some (initial n)) (rows n) := by
  induction n with
  | zero => exact .cons .nil
  | succ n ih =>
      have hinitial : initial (n + 1) = entry ⟨n, false⟩ false (initial n) := by
        simp [initial, entry, List.range_succ]
      rw [hinitial]
      exact unfolds_zigzag ih (fun _ => key_lt_of_mem_rows) false

/-! ## How many there are, and which -/

theorem perm_of_mem_plainChanges {n : Nat} {order : List Nat} (h : order ∈ plainChanges n) :
    order.Perm (List.range n) := by
  induction n generalizing order with
  | zero => rw [List.mem_singleton.mp h]; exact .refl _
  | succ n ih =>
      obtain ⟨rest, hrest, -, i, hi, rfl⟩ := mem_zigzag h
      rw [List.range_succ]
      exact (List.perm_insertIdx n rest hi).trans
        (((ih hrest).cons n).trans (List.perm_append_singleton n (List.range n)).symm)

theorem mem_plainChanges_of_perm {n : Nat} {order : List Nat} (h : order.Perm (List.range n)) :
    order ∈ plainChanges n := by
  induction n generalizing order with
  | zero => rw [h.eq_nil]; exact List.mem_singleton.mpr rfl
  | succ n ih =>
      obtain ⟨before, after, rfl⟩ :=
        List.append_of_mem (h.mem_iff.mpr (List.mem_range.mpr (Nat.lt_succ_self n)))
      -- Without its greatest key the row is one of those of the keys below.
      have hrest : (before ++ after).Perm (List.range n) := by
        rw [List.range_succ] at h
        exact (List.perm_cons n).mp
          (List.perm_middle.symm.trans (h.trans (List.perm_append_singleton n _)))
      rw [← insertIdx_length_append n before after]
      exact mem_zigzag_const (ih hrest) (by simp)

theorem length_plainChanges (n : Nat) : (plainChanges n).length = n.factorial := by
  induction n with
  | zero => rfl
  | succ n ih =>
      rw [plainChanges, length_zigzag fun l hl => ?_, ih, Nat.factorial_succ]
      rw [(perm_of_mem_plainChanges hl).length_eq, List.length_range]

/-- The order is one of all permutations. -/
theorem plainChanges_perm (n : Nat) : (plainChanges n).Perm (List.range n).permutations := by
  have hnodup : (List.range n).permutations.Nodup :=
    List.nodup_permutations _ List.nodup_range
  have hsubset : (List.range n).permutations ⊆ plainChanges n := fun order h =>
    mem_plainChanges_of_perm (List.mem_permutations.mp h)
  refine ((List.subperm_of_subset hnodup hsubset).perm_of_length_le ?_).symm
  rw [length_plainChanges, List.length_permutations, List.length_range]

example : plainChanges 3 = [[0, 1, 2], [0, 2, 1], [2, 0, 1], [2, 1, 0], [1, 2, 0], [1, 0, 2]] := by
  decide

theorem nodup_plainChanges (n : Nat) : (plainChanges n).Nodup :=
  (plainChanges_perm n).nodup_iff.mpr (List.nodup_permutations _ List.nodup_range)

theorem mem_plainChanges {n : Nat} {order : List Nat} :
    order ∈ plainChanges n ↔ order.Perm (List.range n) :=
  ⟨perm_of_mem_plainChanges, mem_plainChanges_of_perm⟩

theorem head?_plainChanges (n : Nat) : (plainChanges n).head? = some (List.range n) := by
  rw [← keys_rows, List.head?_map, (unfolds_rows n).head?, Option.map_some, initial,
    List.map_map]
  exact congrArg some (List.map_id _)

end PuzzleKit.Traveller

namespace PuzzleKit.Arrangements

open Traveller

variable {α : Type}

/-- After `k` calls the row is the `k`th of those that the first one unfolds
to; the items stay. -/
theorem drop_eq {a : Arrangements α} {rows : List (List Traveller)} (h : Unfolds a.row rows)
    (k : Nat) : a.drop k = ⟨a.items, rows[k]?⟩ := by
  induction k generalizing a rows with
  | zero => rw [drop, ← List.head?_eq_getElem?, h.head?]
  | succ k ih =>
      obtain ⟨items, row⟩ := a
      cases h with
      | nil => rfl
      | cons h => exact ih h

theorem map_some_arranged {items : List α} {row : List Traveller}
    (h : ∀ t ∈ row, t.key < items.length) :
    (arranged items row).map some = row.map fun t => items[t.key]? := by
  induction row with
  | nil => rfl
  | cons t row ih =>
      have ht := List.getElem?_eq_getElem (h t List.mem_cons_self)
      have hrow := ih fun u hu => h u (List.mem_cons_of_mem t hu)
      rw [arranged] at hrow ⊢
      rw [List.filterMap_cons, ht, List.map_cons, hrow, List.map_cons, ht]

/-- The arrangements of a sequence by repeated `next?`: as many as there are
permutations of its positions, one for each, the first one the identity, and
none after them. -/
theorem next?_exhausts (items : List α) :
    ∃ orders : List (List Nat),
      orders.length = items.length.factorial ∧ orders.Nodup ∧
        orders.head? = some (List.range items.length) ∧
        (∀ order, order ∈ orders ↔ order.Perm (List.range items.length)) ∧
        (∀ k order, orders[k]? = some order →
          ((ofList items).drop k).row.map (List.map key) = some order ∧
            ∃ arranged rest, ((ofList items).drop k).next? = some (arranged, rest) ∧
              arranged.map some = order.map fun key => items[key]?) ∧
        ∀ k, orders.length ≤ k → ((ofList items).drop k).next? = none := by
  have hdrop := fun k => drop_eq (a := ofList items) (unfolds_rows items.length) k
  refine ⟨plainChanges items.length, length_plainChanges _, nodup_plainChanges _,
    head?_plainChanges _, fun _ => mem_plainChanges, fun k order horder => ?_, fun k hk => ?_⟩
  · rw [← keys_rows, List.getElem?_map] at horder
    obtain ⟨row, hrow, rfl⟩ := Option.map_eq_some_iff.mp horder
    rw [hdrop k, hrow]
    refine ⟨rfl, _, _, rfl, ?_⟩
    rw [List.map_map]
    exact map_some_arranged (key_lt_of_mem_rows (List.mem_of_getElem? hrow))
  · rw [← keys_rows, List.length_map] at hk
    rw [hdrop k, List.getElem?_eq_none hk]
    rfl

end PuzzleKit.Arrangements
