import Mathlib.Data.List.Dedup
import Mathlib.Data.List.FinRange
import PuzzleKit.Proofs.Fallible
import PuzzleKit.Proofs.Partition.Generated

/-!
# Reporting the sets of a partition

Data is collected by a walk over the elements in increasing order. Each element is
found, and its item goes into the group of the root that was found. Finding rebuilds the
forest on the way, but it changes no root, so all the finds answer as if they were made
on the forest that the walk began with, and what remains is a fold with a fixed function
`root` (`foldl_representative`).

The first element with a root opens the group of that root, and as the walk goes up, it
is the lowest one of its class. So after any part of the walk the groups are those of the
lowest elements so far, in increasing order (`Heads`, `exists_heads`). There are as many
of them as roots, which is the number of sets that the partition keeps.
-/

namespace PuzzleKit.Partition

variable {n : Nat} {α : Type} [DecidableEq α]

/-! ## Items without repetitions -/

theorem eraseDups_concat (items : List α) (item : α) :
    (items ++ [item]).eraseDups =
      if item ∈ items then items.eraseDups else items.eraseDups ++ [item] := by
  rw [List.eraseDups_append]
  split
  · next h => simp [List.removeAll, h]
  · next h => simp [List.removeAll, h, List.eraseDups_cons]

theorem nodup_eraseDups (items : List α) : items.eraseDups.Nodup := by
  induction items using List.reverseRecOn with
  | nil => exact List.nodup_nil
  | append_singleton items item ih =>
      rw [eraseDups_concat]
      split
      · exact ih
      · next h =>
          rw [← List.concat_eq_append, List.nodup_concat, List.mem_eraseDups]
          exact ⟨h, ih⟩

theorem eraseDups_of_nodup {items : List α} (h : items.Nodup) : items.eraseDups = items := by
  induction items using List.reverseRecOn with
  | nil => rfl
  | append_singleton items item ih =>
      rw [← List.concat_eq_append, List.nodup_concat] at h
      rw [eraseDups_concat, if_neg h.1, ih h.2]

/-! ## The lowest elements -/

section Heads

variable {root : Fin n → Fin n} {done lows : List (Fin n)} {i : Fin n}

/-- The first of some elements with each root. -/
structure Heads (root : Fin n → Fin n) (done lows : List (Fin n)) : Prop where
  sublist : lows.Sublist done
  nodup : (lows.map root).Nodup
  covers : ∀ j ∈ done, ∃ low ∈ lows, root low = root j ∧ low ≤ j

theorem Heads.nil (root : Fin n → Fin n) : Heads root [] [] :=
  ⟨.refl [], List.nodup_nil, fun _ hj => absurd hj List.not_mem_nil⟩

/-- An element after all others is a head if its root is new. -/
theorem Heads.concat (h : Heads root done lows) (hlast : ∀ j ∈ done, j < i) :
    Heads root (done ++ [i]) (if root i ∈ lows.map root then lows else lows ++ [i]) := by
  split
  · next hold =>
      refine ⟨h.sublist.trans (List.sublist_append_left ..), h.nodup, fun j hj => ?_⟩
      rcases List.mem_append.mp hj with hj | hj
      · exact h.covers j hj
      · obtain ⟨low, hlow, hroot⟩ := List.mem_map.mp hold
        rw [List.mem_singleton.mp hj]
        exact ⟨low, hlow, hroot, (hlast low (h.sublist.subset hlow)).le⟩
  · next hnew =>
      refine ⟨h.sublist.append (.refl [i]), ?_, fun j hj => ?_⟩
      · rw [List.map_append, List.map_singleton, ← List.concat_eq_append, List.nodup_concat]
        exact ⟨hnew, h.nodup⟩
      · rcases List.mem_append.mp hj with hj | hj
        · obtain ⟨low, hlow, hcovers⟩ := h.covers j hj
          exact ⟨low, List.mem_append_left _ hlow, hcovers⟩
        · rw [List.mem_singleton.mp hj]
          exact ⟨i, List.mem_append_right _ (List.mem_singleton_self i), rfl, le_rfl⟩

theorem Heads.inj (h : Heads root done lows) {a b : Fin n} (ha : a ∈ lows) (hb : b ∈ lows)
    (heq : root a = root b) : a = b :=
  List.inj_on_of_nodup_map h.nodup ha hb heq

/-- The lowest elements of the classes of an equivalence, in increasing order. -/
structure Lowest (r : Setoid (Fin n)) (lows : List (Fin n)) : Prop where
  increasing : lows.Pairwise (· < ·)
  mem_iff : ∀ i, i ∈ lows ↔ ∀ j, r i j → i ≤ j

theorem Heads.lowest (h : Heads root (List.finRange n) lows) : Lowest (Setoid.ker root) lows := by
  refine ⟨(List.pairwise_lt_finRange n).sublist h.sublist, fun i => ⟨fun hi j hj => ?_,
    fun hi => ?_⟩⟩
  · -- The head with the root of `j` is `i` itself.
    obtain ⟨low, hlow, hroot, hle⟩ := h.covers j (List.mem_finRange j)
    rw [← h.inj hlow hi (hroot.trans (Eq.symm hj))]
    exact hle
  · obtain ⟨low, hlow, hroot, hle⟩ := h.covers i (List.mem_finRange i)
    rw [le_antisymm (hi low hroot.symm) hle]
    exact hlow

theorem Heads.mem_map_iff (h : Heads root (List.finRange n) lows) {v : Fin n} :
    v ∈ lows.map root ↔ v ∈ (List.finRange n).map root := by
  simp only [List.mem_map]
  constructor
  · rintro ⟨low, -, rfl⟩
    exact ⟨low, List.mem_finRange low, rfl⟩
  · rintro ⟨i, hi, rfl⟩
    obtain ⟨low, hlow, hroot, -⟩ := h.covers i hi
    exact ⟨low, hlow, hroot⟩

theorem Heads.length_eq (h : Heads root (List.finRange n) lows) :
    lows.length = (Set.range root).ncard := by
  have hrange : Set.range root = ((lows.map root).toFinset : Set (Fin n)) := by
    ext v
    rw [List.coe_toFinset, Set.mem_ofPred_eq, h.mem_map_iff, List.mem_map]
    simp only [List.mem_finRange, true_and, Set.mem_range]
  rw [hrange, Set.ncard_coe_finset, List.toFinset_card_of_nodup h.nodup, List.length_map]

/-! ## Grouping by a root -/

/-- The elements among some that have the root of a given one. -/
def members (root : Fin n → Fin n) (done : List (Fin n)) (low : Fin n) : List (Fin n) :=
  done.filter fun i => decide (root i = root low)

theorem mem_members {low : Fin n} : i ∈ members root done low ↔ i ∈ done ∧ root i = root low := by
  rw [members, List.mem_filter, decide_eq_true_iff]

theorem nodup_members (root : Fin n → Fin n) (low : Fin n) :
    (members root (List.finRange n) low).Nodup :=
  (List.nodup_finRange n).filter _

/-- The elements are shared out among the heads: as many have the root of a head as there are
copies of it among all roots. -/
theorem Heads.sum_members (h : Heads root (List.finRange n) lows) :
    (lows.map fun low => (members root (List.finRange n) low).length).sum = n := by
  have hperm : (lows.map root).Perm ((List.finRange n).map root).dedup := by
    rw [List.perm_ext_iff_of_nodup h.nodup (List.nodup_dedup _)]
    intro v
    rw [h.mem_map_iff, List.mem_dedup]
  calc (lows.map fun low => (members root (List.finRange n) low).length).sum
      = ((lows.map root).map fun v => ((List.finRange n).map root).count v).sum := by
        rw [List.map_map]
        congr 2
        funext low
        rw [members, ← List.countP_eq_length_filter, Function.comp, List.count, List.countP_map]
        rfl
    _ = (((List.finRange n).map root).dedup.map fun v =>
          ((List.finRange n).map root).count v).sum := (hperm.map _).sum_eq
    _ = n := by rw [List.sum_map_count_dedup_eq_length, List.length_map, List.length_finRange]

/-- The items of those elements, without repetitions. -/
def collected (root : Fin n → Fin n) (item : Fin n → α) (done : List (Fin n)) (low : Fin n) :
    List α :=
  ((members root done low).map item).eraseDups

theorem mem_collected {item : Fin n → α} {low : Fin n} {x : α} :
    x ∈ collected root item (List.finRange n) low ↔ ∃ i, root i = root low ∧ item i = x := by
  simp only [collected, List.mem_eraseDups, List.mem_map, mem_members, List.mem_finRange, true_and]

theorem length_collected {item : Fin n → α} (hitem : Function.Injective item) (low : Fin n) :
    (collected root item (List.finRange n) low).length =
      (members root (List.finRange n) low).length := by
  rw [collected, eraseDups_of_nodup ((nodup_members root low).map hitem), List.length_map]

theorem Heads.sum_collected (h : Heads root (List.finRange n) lows) {item : Fin n → α}
    (hitem : Function.Injective item) :
    (lows.map fun low => (collected root item (List.finRange n) low).length).sum = n := by
  simp only [length_collected hitem, h.sum_members]

/-- An item is put into the group of its key. Where there are the groups of some heads, the
one of a new head is opened behind them. -/
theorem insertInGroup_map {items items' : Fin n → List α} {item : α}
    (hnodup : (lows.map root).Nodup) (hnew : root i ∉ lows.map root → items i = [])
    (hsame : ∀ low, root low = root i →
      items' low = if item ∈ items low then items low else items low ++ [item])
    (hother : ∀ low, root low ≠ root i → items' low = items low) :
    insertInGroup (root i) item (lows.map fun low => (root low, items low)) =
      (if root i ∈ lows.map root then lows else lows ++ [i]).map fun low =>
        (root low, items' low) := by
  induction lows with
  | nil => simp [insertInGroup, hnew, hsame]
  | cons low lows ih =>
      obtain ⟨hfirst, hrest⟩ := List.nodup_cons.mp hnodup
      rw [List.map_cons, insertInGroup]
      by_cases heq : root low = root i
      · have htail : ∀ other ∈ lows, (root other, items other) = (root other, items' other) := by
          intro other hmem
          rw [hother other fun h => hfirst (List.mem_map.mpr ⟨other, hmem, h.trans heq.symm⟩)]
        rw [if_pos heq, if_pos (List.mem_map.mpr ⟨low, List.mem_cons_self, heq⟩), List.map_cons,
          hsame low heq, List.map_congr_left htail]
        simp only [List.contains_iff_mem]
      · have hmem : root i ∈ (low :: lows).map root ↔ root i ∈ lows.map root := by
          rw [List.map_cons, List.mem_cons, or_iff_right fun h => heq h.symm]
        rw [if_neg heq, ih hrest fun h => hnew (hmem.not.mpr h), if_congr hmem rfl rfl,
          ← hother low heq]
        split <;> rfl

theorem members_concat (low : Fin n) :
    members root (done ++ [i]) low =
      if root i = root low then members root done low ++ [i] else members root done low := by
  rw [members, List.filter_append, List.filter_singleton]
  split <;> simp_all [members]

theorem Heads.members_eq_nil (h : Heads root done lows) (hnew : root i ∉ lows.map root) :
    members root done i = [] := by
  rw [List.eq_nil_iff_forall_not_mem]
  intro j hj
  obtain ⟨hdone, hroot⟩ := mem_members.mp hj
  obtain ⟨low, hlow, heq, -⟩ := h.covers j hdone
  exact hnew (List.mem_map.mpr ⟨low, hlow, heq.trans hroot⟩)

/-- The items of elements in increasing order, grouped by a root: each group is opened by its
lowest element. -/
theorem exists_heads (root : Fin n → Fin n) (item : Fin n → α) (hdone : done.Pairwise (· < ·)) :
    ∃ lows, Heads root done lows ∧
      done.foldl (fun groups i => insertInGroup (root i) (item i) groups) [] =
        lows.map fun low => (root low, collected root item done low) := by
  induction done using List.reverseRecOn with
  | nil => exact ⟨[], .nil root, rfl⟩
  | append_singleton done i ih =>
      obtain ⟨hbefore, -, hlast⟩ := List.pairwise_append.mp hdone
      obtain ⟨lows, hheads, hgroups⟩ := ih hbefore
      refine ⟨_, hheads.concat fun j hj => hlast j hj i (List.mem_singleton_self i), ?_⟩
      rw [List.foldl_concat, hgroups]
      refine insertInGroup_map hheads.nodup (fun hnew => ?_) (fun low heq => ?_) fun low hne => ?_
      · rw [collected, hheads.members_eq_nil hnew, List.map_nil, List.eraseDups_nil]
      · rw [collected, members_concat, if_pos heq.symm, List.map_append, List.map_singleton,
          eraseDups_concat]
        simp only [collected, List.mem_eraseDups]
      · rw [collected, members_concat, if_neg fun h => hne h.symm, collected]

/-! ## The classes of the roots -/

/-- The items of the classes of an equivalence, the classes in the order of their lowest
elements. -/
structure Classes (r : Setoid (Fin n)) (data : List α) (sets : List (List α)) : Prop where
  ordered : ∃ lows, Lowest r lows ∧ List.Forall₂ (fun low set => set.Nodup ∧
    ∀ x, x ∈ set ↔ ∃ i, r low i ∧ data[i.val]? = some x) lows sets
  disjoint : data.Nodup → sets.Pairwise List.Disjoint
  total : data.Nodup → (sets.map List.length).sum = n

/-- The sizes of the classes of an equivalence, each with an element of its class. -/
structure ClassSizes (r : Setoid (Fin n)) (sizes : List (Fin n × Nat)) : Prop where
  nodup : (sizes.map Prod.fst).Nodup
  size_eq : ∀ a size, (a, size) ∈ sizes → size = Set.ncard {i | r a i}
  total : (sizes.map Prod.snd).sum = n

theorem Heads.classes {data : List α} {root : Fin data.length → Fin data.length}
    {lows : List (Fin data.length)} (h : Heads root (List.finRange data.length) lows) :
    Classes (Setoid.ker root) data
      (lows.map (collected root data.get (List.finRange data.length))) := by
  refine ⟨⟨lows, h.lowest, ?_⟩, fun hnodup => ?_, fun hnodup => ?_⟩
  · rw [List.forall₂_map_right_iff, List.forall₂_same]
    intro low _
    refine ⟨nodup_eraseDups _, fun x => ?_⟩
    rw [mem_collected]
    refine exists_congr fun i => ?_
    rw [eq_comm, List.getElem?_eq_getElem i.isLt, Option.some.injEq]
    rfl
  · have hget := List.nodup_iff_injective_get.mp hnodup
    rw [List.pairwise_map]
    refine (List.pairwise_map.mp h.nodup).imp fun hne x hx hx' => ?_
    obtain ⟨i, hi, rfl⟩ := mem_collected.mp hx
    obtain ⟨j, hj, heq⟩ := mem_collected.mp hx'
    exact hne (hi.symm.trans (hget heq ▸ hj))
  · rw [List.map_map]
    exact h.sum_collected (List.nodup_iff_injective_get.mp hnodup)

theorem Heads.classSizes (h : Heads root (List.finRange n) lows)
    (hroot : ∀ i, root (root i) = root i) :
    ClassSizes (Setoid.ker root)
      (lows.map fun low => (root low, (collected root id (List.finRange n) low).length)) := by
  refine ⟨?_, fun a size hmem => ?_, ?_⟩
  · rw [List.map_map]
    exact h.nodup
  · obtain ⟨low, -, heq⟩ := List.mem_map.mp hmem
    cases heq
    have hclass : {i | Setoid.ker root (root low) i} =
        ((members root (List.finRange n) low).toFinset : Set (Fin n)) := by
      ext i
      rw [List.coe_toFinset, Set.mem_ofPred_eq, Set.mem_ofPred_eq, mem_members, Setoid.ker_def,
        hroot, eq_comm]
      exact (and_iff_right (List.mem_finRange i)).symm
    rw [length_collected Function.injective_id, hclass, Set.ncard_coe_finset,
      List.toFinset_card_of_nodup (nodup_members root low)]
  · rw [List.map_map]
    exact h.sum_collected Function.injective_id

end Heads

/-! ## Finding while grouping -/

theorem find_val (p : Partition n) (i : Fin n) : p.find i = .ok (p.representative i) := by
  rw [find, element_val]
  rfl

/-- Every find answers with the root that the element had to begin with. -/
theorem foldl_representative (item : Fin n → α) (done : List (Fin n)) (p : Partition n)
    (groups : List (Fin n × List α)) :
    ∃ p', p'.forest.root = p.forest.root ∧ p'.setCount = p.setCount ∧
      done.foldl (fun (groups, p) i =>
        let (r, p) := p.representative i
        (insertInGroup r (item i) groups, p)) (groups, p) =
      (done.foldl (fun groups i => insertInGroup (p.forest.root i) (item i) groups) groups, p') := by
  induction done generalizing p groups with
  | nil => exact ⟨p, rfl, rfl, rfl⟩
  | cons i done ih =>
      obtain ⟨p', hroot, hcount, hfold⟩ :=
        ih (p.representative i).2 (insertInGroup (p.forest.root i) (item i) groups)
      have hfirst : (p.representative i).2.forest.root = p.forest.root :=
        funext (Forest.root_compress p.forest i)
      rw [hfirst] at hroot hfold
      exact ⟨p', hroot, hcount, hfold⟩

theorem exists_groups (p : Partition n) (data : Vector α n) :
    ∃ lows p', Heads p.forest.root (List.finRange n) lows ∧ p'.forest.root = p.forest.root ∧
      p'.setCount = p.setCount ∧
      p.groups data = (lows.map fun low => (p.forest.root low,
        collected p.forest.root data.get (List.finRange n) low), p') := by
  obtain ⟨p', hroot, hcount, hfold⟩ := foldl_representative data.get (List.finRange n) p []
  obtain ⟨lows, hheads, hgroups⟩ :=
    exists_heads p.forest.root data.get (List.pairwise_lt_finRange n)
  rw [hgroups] at hfold
  exact ⟨lows, p', hheads, hroot, hcount, hfold⟩

/-! ## Resolving -/

/-- Two partitions that comparing, finding and counting do not tell apart. -/
structure Agrees (p' p : Partition n) : Prop where
  sameSet : ∀ a b : Nat, p'.sameSet a b = p.sameSet a b
  find : ∀ a : Nat, (p'.find a).map Prod.fst = (p.find a).map Prod.fst
  setCount : p'.setCount = p.setCount

variable {p p' : Partition n} {r : Setoid (Fin n)}

theorem agrees_of_root_eq (hroot : p'.forest.root = p.forest.root)
    (hcount : p'.setCount = p.setCount) : p'.Agrees p where
  sameSet a b := by rw [Partition.sameSet, Partition.sameSet, hroot]
  find a := by
    rw [Partition.find, Partition.find]
    cases element n a .noElementToFind with
    | error fault => rfl
    | ok i => exact congrArg (fun root => Except.ok (root i)) hroot
  setCount := hcount

theorem Sound.length_heads (h : p.Sound r) {lows : List (Fin n)}
    (hheads : Heads p.forest.root (List.finRange n) lows) : lows.length = p.setCount := by
  rw [h.setCount_eq, hheads.length_eq]

theorem Sound.exists_resolve (h : p.Sound r) {data : List α} (hlen : data.length = n) :
    ∃ sets p', p.resolve data = .ok (sets, p') ∧ p'.Agrees p ∧ sets.length = p.setCount ∧
      Classes r data sets := by
  subst hlen
  obtain ⟨lows, p', hheads, hroot, hcount, hgroups⟩ := exists_groups p ⟨data.toArray, rfl⟩
  have hresolve : p.resolve data =
      .ok (lows.map (collected p.forest.root data.get (List.finRange _)), p') := by
    rw [resolve, dif_pos rfl, hgroups]
    exact congrArg (fun sets => Except.ok (sets, p')) List.map_map
  refine ⟨_, p', hresolve, agrees_of_root_eq hroot hcount, ?_, h.ker_root ▸ hheads.classes⟩
  rw [List.length_map, h.length_heads hheads]

theorem Sound.exists_resolveSizes (h : p.Sound r) :
    ∃ sizes p', p.resolveSizes = (sizes, p') ∧ p'.Agrees p ∧ sizes.length = p.setCount ∧
      ClassSizes r sizes ∧ ∀ a ∈ sizes.map Prod.fst, ∃ p'', p'.find a = .ok (a, p'') := by
  obtain ⟨lows, p', hheads, hroot, hcount, hgroups⟩ := exists_groups p (Vector.ofFn id)
  have hget : (Vector.ofFn id : Vector (Fin n) n).get = id := by
    funext i
    exact Vector.getElem_ofFn i.isLt
  have hsizes : p.resolveSizes = (lows.map fun low => (p.forest.root low,
      (collected p.forest.root id (List.finRange n) low).length), p') := by
    rw [resolveSizes, hgroups, hget]
    exact congrArg (fun sizes => (sizes, p')) List.map_map
  refine ⟨_, p', hsizes, agrees_of_root_eq hroot hcount, ?_,
    h.ker_root ▸ hheads.classSizes p.forest.root_root, fun a ha => ?_⟩
  · rw [List.length_map, h.length_heads hheads]
  · rw [List.map_map] at ha
    obtain ⟨low, -, rfl⟩ := List.mem_map.mp ha
    obtain ⟨p'', hfind, -, -⟩ := exists_find p' (p.forest.root low)
    rw [hroot, Forest.root_root] at hfind
    exact ⟨p'', hfind⟩

/-! ## Resolving in place

Whoever holds a partition goes on with the one that a call returns, and with the same one
if the call is refused. A loop of calls may be refused half way, and then what the calls
before have done stays done.
-/

/-- A call on the partition that is held. -/
def inPlace {β : Type} (call : Partition n → Except PartitionFault (β × Partition n)) :
    ExceptT PartitionFault (StateM (Partition n)) β :=
  fun p =>
    match call p with
    | .ok (answer, p') => (.ok answer, p')
    | .error fault => (.error fault, p)

/-- The item of an element, put into the group of the root that is found for it. -/
def insertInPlace (groups : List (Fin n × List α)) :
    α × Nat → ExceptT PartitionFault (StateM (Partition n)) (List (Fin n × List α))
  | (item, index) => do
    let r ← inPlace (·.find index)
    return insertInGroup r item groups

/-- Resolving as a loop over the items, in which each find works on the partition that the one
before has left behind. -/
def resolveInPlace (data : List α) :
    ExceptT PartitionFault (StateM (Partition n)) (List (List α)) := do
  if data.length = n then
    let groups ← data.zipIdx.foldlM insertInPlace []
    return groups.map Prod.snd
  else throw (.dataLength data.length n)

theorem insertInPlace_val (groups : List (Fin n × List α)) (item : α) (i : Fin n)
    (p : Partition n) : insertInPlace groups (item, i.val) p =
      (.ok (insertInGroup (p.representative i).1 item groups), (p.representative i).2) := by
  have hfind : inPlace (fun p => p.find i.val) p =
      (.ok (p.representative i).1, (p.representative i).2) := by
    rw [inPlace, find_val]
  exact bind_apply_of_ok hfind

theorem foldlM_insertInPlace (item : Fin n → α) (done : List (Fin n)) (p : Partition n)
    (groups : List (Fin n × List α)) :
    (done.map fun i => (item i, i.val)).foldlM insertInPlace groups p =
      (done.foldl (fun (groups, p) i =>
        let (r, p) := p.representative i
        (insertInGroup r (item i) groups, p)) (groups, p)).map .ok id := by
  induction done generalizing p groups with
  | nil => rfl
  | cons i done ih =>
      rw [List.map_cons, List.foldlM_cons, bind_apply_of_ok (insertInPlace_val groups _ i p), ih]
      rfl

theorem resolveInPlace_eq (data : List α) :
    resolveInPlace (n := n) data = inPlace fun p => p.resolve data := by
  funext p
  by_cases hlen : data.length = n
  · subst hlen
    -- The indices are those of the elements, so no find is refused.
    have hitems : data.zipIdx = (List.finRange data.length).map fun i => (data.get i, i.val) := by
      refine List.ext_getElem (by simp) fun i _ _ => ?_
      simp
    have hfold := foldlM_insertInPlace data.get (List.finRange data.length) p []
    rw [← hitems] at hfold
    rw [resolveInPlace, if_pos rfl, bind_apply_of_ok hfold, inPlace, resolve, dif_pos rfl]
    rfl
  · rw [resolveInPlace, inPlace, resolve, if_neg hlen, dif_neg hlen]
    rfl

/-! ## After any calls -/

/-- The sets that a partition hands out are the classes of an equivalence. -/
structure Reports (p : Partition n) (r : Setoid (Fin n)) : Prop where
  resolve : ∀ {α : Type} [DecidableEq α] (data : List α), data.length = n →
    ∃ sets p', p.resolve data = .ok (sets, p') ∧ resolveInPlace data p = (.ok sets, p') ∧
      p'.Agrees p ∧ sets.length = p.setCount ∧ Classes r data sets
  resolveSizes : ∃ sizes p', p.resolveSizes = (sizes, p') ∧ p'.Agrees p ∧
    sizes.length = p.setCount ∧ ClassSizes r sizes ∧
      ∀ a ∈ sizes.map Prod.fst, ∃ p'', p'.find a = .ok (a, p'')
  refuses : ∀ {α : Type} [DecidableEq α] (data : List α), data.length ≠ n →
    p.resolve data = .error (.dataLength data.length n) ∧
      resolveInPlace data p = (.error (.dataLength data.length n), p)

theorem Sound.reports (h : p.Sound r) : p.Reports r where
  resolve data hlen := by
    obtain ⟨sets, p', hresolve, hsets⟩ := h.exists_resolve hlen
    refine ⟨sets, p', hresolve, ?_, hsets⟩
    rw [resolveInPlace_eq, inPlace, hresolve]
  resolveSizes := h.exists_resolveSizes
  refuses data hlen := by
    have hresolve : p.resolve data = .error (.dataLength data.length n) := dif_neg hlen
    refine ⟨hresolve, ?_⟩
    rw [resolveInPlace_eq, inPlace, hresolve]

/-- However unions, finds and comparisons follow each other on a new partition, collecting
data returns the items of the classes in the order of their lowest elements, one list
without repetitions for each set that is counted, and the sizes are those of the classes.
Nothing that is asked afterwards is answered in another way. Data of another length is
refused before anything is found, so a partition that is held stays what it was. -/
theorem run_reports (n : Nat) (calls : List (Call n)) :
    (∀ start, ofSize n = .ok start → start = discrete n) ∧
      ∃ answers p, (discrete n).run calls = .ok (answers, p) ∧ p.Reports (generated calls) := by
  obtain ⟨answers, p, hrun, hsound, -⟩ := (discrete_sound n).run calls
  rw [bot_sup_eq] at hsound
  exact ⟨fun _ => eq_discrete_of_ofSize, answers, p, hrun, hsound.reports⟩

/-- Two sets, of which the one with the lowest element is put together last. -/
def twoSets : List (Call 5) := [.union 3 1, .find 3, .union 4 2, .union 2 0]

theorem run_reports_twoSets :
    ofSize 5 = .ok (discrete 5) ∧ ∃ answers p, (discrete 5).run twoSets = .ok (answers, p) ∧
      (∃ p', p.resolve [7, 8, 7, 9, 5] = .ok ([[7, 5], [8, 9]], p') ∧ p'.Agrees p ∧
        [[7, 5], [8, 9]].length = p.setCount) ∧
      (∃ sets p', p.resolve [4, 3, 2, 1, 0] = .ok (sets, p') ∧ sets.Pairwise List.Disjoint ∧
        (sets.map List.length).sum = 5) ∧
      resolveInPlace [4, 3, 2] p = (.error (.dataLength 3 5), p) := by
  obtain ⟨-, answers, p, hrun, hreports⟩ := run_reports 5 twoSets
  obtain ⟨sets, p', hresolve, -, hagrees, hlength, -⟩ := hreports.resolve [7, 8, 7, 9, 5] rfl
  have hsets : ((discrete 5).run twoSets).toOption.map
      (fun (_, p) => (p.resolve [7, 8, 7, 9, 5]).toOption.map Prod.fst) =
        some (some [[7, 5], [8, 9]]) := by decide +kernel
  rw [hrun] at hsets
  simp only [Except.toOption, hresolve, Option.map_some, Option.some.injEq] at hsets
  subst hsets
  obtain ⟨others, p'', hothers, -, -, -, hclasses⟩ := hreports.resolve [4, 3, 2, 1, 0] rfl
  exact ⟨rfl, answers, p, hrun, ⟨p', hresolve, hagrees, hlength⟩,
    ⟨others, p'', hothers, hclasses.disjoint (by decide), hclasses.total (by decide)⟩,
    (hreports.refuses [4, 3, 2] (by decide)).2⟩

end PuzzleKit.Partition
