import Mathlib.Combinatorics.SimpleGraph.Connectivity.Connected
import PuzzleKit.Partition.Cluster
import PuzzleKit.Proofs.Integer.Exact
import PuzzleKit.Proofs.Partition.Generated

/-!
# Clusters are connected components

Clustering asks one question for each pair and unites the pair if the answer is yes. What is
asked does not depend on the answers, so the questions can be taken out of the loop: first
all of them are put, one after the other, and then the sets are united by the list of answers
(`clusters_eq`). This holds of questions with any effects, and the second half has none.

The answers make a graph of the elements, with an edge for each pair that was affirmed. The
unions generate the equivalence of being connected in this graph, so the sets are its
components. Where the answer does not depend on the order in which a pair is put, the graph is
determined by the items, and permuting the items only renames its vertices.
-/

namespace PuzzleKit.Partition

variable {n : Nat} {α : Type} {m : Type → Type} [Monad m] {p : Partition n} {r : Setoid (Fin n)}

/-! ## Before the first question -/

theorem exists_listSize_iff :
    (∃ size, Word.listSize 8 1 n = .ok size) ↔ (n : Int) * 8 ≤ Width.i64.max := by
  constructor
  · rintro ⟨size, hsize⟩
    obtain ⟨items, hitems, hrest⟩ := bind_eq_ok_iff.mp hsize
    obtain ⟨bytes, hbytes, -⟩ := bind_eq_ok_iff.mp hrest
    have hmax := bytes.le_max
    rw [Word.fit_eq_ok_iff.mp hbytes, Word.fit_eq_ok_iff.mp hitems] at hmax
    simpa using hmax
  · intro hmax
    have hwide : Width.i64.max ≤ Width.u64.max := by decide
    obtain ⟨items, hitems, hval⟩ := Word.exists_fit_of_nonneg (w := .u64)
      (v := (1 : Nat) * (n : Nat)) .mulOverflow (by omega) (by omega)
    obtain ⟨bytes, hbytes, -⟩ := Word.exists_fit_of_nonneg (w := .i64)
      (v := items.val * (8 : Nat)) .capacityOverflow (by omega) (by omega)
    exact ⟨items, bind_eq_ok_iff.mpr ⟨items, hitems, bind_eq_ok_iff.mpr ⟨bytes, hbytes, rfl⟩⟩⟩

/-- The elements can be held if a signed word counts the bytes of their parents. -/
theorem ofSize_eq_ok_iff :
    ofSize n = .ok p ↔ (n : Int) * 8 ≤ Width.i64.max ∧ p = discrete n := by
  rw [ofSize, ← exists_listSize_iff]
  cases Word.listSize 8 1 n with
  | error fault => exact ⟨fun h => (by cases h), fun ⟨⟨_, h⟩, _⟩ => by cases h⟩
  | ok size =>
      refine ⟨fun h => ⟨⟨size, rfl⟩, ?_⟩, fun ⟨_, h⟩ => congrArg Except.ok h.symm⟩
      exact (Except.ok.inj h).symm
/-! ## The questions -/

theorem mem_orderedPairs {i j : Fin n} : (i, j) ∈ orderedPairs n ↔ i < j := by
  simp [orderedPairs]

theorem pairwise_orderedPairs (n : Nat) :
    (orderedPairs n).Pairwise (Prod.Lex (· < ·) (· < ·)) := by
  rw [orderedPairs, List.pairwise_flatMap]
  refine ⟨fun i _ => ?_, (List.pairwise_lt_finRange n).imp fun hlt => ?_⟩
  · rw [List.pairwise_map]
    exact ((List.pairwise_lt_finRange n).filter _).imp fun hlt => .right i hlt
  · intro x hx y hy
    obtain ⟨j, -, rfl⟩ := List.mem_map.mp hx
    obtain ⟨k, -, rfl⟩ := List.mem_map.mp hy
    exact .left j k hlt

/-- Put the question about a pair. -/
def askPair (together : α → α → m Bool) (data : Vector α n) (pair : Fin n × Fin n) :
    m ((Fin n × Fin n) × Bool) := do
  let answer ← together (data.get pair.1) (data.get pair.2)
  return (pair, answer)

/-- Unite a pair that was affirmed. -/
def uniteAffirmed (p : Partition n) : (Fin n × Fin n) × Bool → Partition n
  | (pair, true) => (p.unite pair.1 pair.2).2
  | (_, false) => p

/-- The sets that result from some answers. -/
def united (asked : List ((Fin n × Fin n) × Bool)) : Partition n :=
  asked.foldl uniteAffirmed (discrete n)

theorem uniteIf_eq [LawfulMonad m] (together : α → α → m Bool) (data : Vector α n)
    (p : Partition n) (pair : Fin n × Fin n) :
    uniteIf together data p pair = uniteAffirmed p <$> askPair together data pair := by
  rw [uniteIf, askPair, map_bind]
  refine bind_congr fun answer => ?_
  rw [map_pure]
  cases answer <;> rfl

theorem foldlM_uniteIf [LawfulMonad m] (together : α → α → m Bool) (data : Vector α n)
    (pairs : List (Fin n × Fin n)) (p : Partition n) :
    pairs.foldlM (uniteIf together data) p =
      (fun asked => asked.foldl uniteAffirmed p) <$> pairs.mapM (askPair together data) := by
  induction pairs generalizing p with
  | nil => simp
  | cons pair pairs ih =>
      rw [List.foldlM_cons, uniteIf_eq, List.mapM_cons, bind_map_left, map_bind]
      refine bind_congr fun question => ?_
      rw [ih, map_bind, map_eq_pure_bind]
      exact bind_congr fun asked =>
        (map_pure (fun asked => asked.foldl uniteAffirmed p) (question :: asked)).symm

theorem clusters_eq [LawfulMonad m] (together : α → α → m Bool) (data : Vector α n) :
    clusters together data = united <$> (orderedPairs n).mapM (askPair together data) :=
  foldlM_uniteIf together data (orderedPairs n) (discrete n)

/-! ## The graph of the answers -/

/-- The elements, with an edge for each pair that was affirmed. -/
def affirmedGraph (asked : List ((Fin n × Fin n) × Bool)) : SimpleGraph (Fin n) :=
  SimpleGraph.fromRel fun i j => ((i, j), true) ∈ asked

theorem reachableSetoid_fromRel {β : Type} (related : β → β → Prop) :
    (SimpleGraph.fromRel related).reachableSetoid = Relation.EqvGen.setoid related := by
  refine le_antisymm (fun a b hab => ?_) (Setoid.eqvGen_le fun a b hab => ?_)
  · replace hab := (SimpleGraph.reachable_iff_reflTransGen a b).mp hab
    induction hab with
    | refl => exact .refl a
    | tail _ hadj ih =>
        refine .trans _ _ _ ih ?_
        rcases hadj.2 with hrel | hrel
        · exact .rel _ _ hrel
        · exact .symm _ _ (.rel _ _ hrel)
  · change (SimpleGraph.fromRel related).Reachable a b
    by_cases heq : a = b
    · exact heq ▸ .refl a
    · exact SimpleGraph.Adj.reachable ⟨heq, .inl hab⟩

theorem Sound.foldl_uniteAffirmed (h : p.Sound r) (asked : List ((Fin n × Fin n) × Bool)) :
    (asked.foldl uniteAffirmed p).Sound
      (r ⊔ Relation.EqvGen.setoid fun i j => ((i, j), true) ∈ asked) := by
  induction asked generalizing p r with
  | nil =>
      rw [sup_eq_left.mpr (Setoid.eqvGen_le fun i j hmem => absurd hmem List.not_mem_nil)]
      exact h
  | cons question asked ih =>
      obtain ⟨⟨i, j⟩, answer⟩ := question
      cases answer with
      | false =>
          have hrest : (fun a b => ((a, b), true) ∈ ((i, j), false) :: asked) =
              fun a b => ((a, b), true) ∈ asked := by
            funext a b
            simp
          rw [hrest]
          exact ih h
      | true =>
          have hrest : (fun a b => ((a, b), true) ∈ ((i, j), true) :: asked) =
              (fun a b => a = i ∧ b = j) ⊔ fun a b => ((a, b), true) ∈ asked := by
            funext a b
            simp
          rw [hrest, Setoid.gi.gc.l_sup, ← sup_assoc]
          exact ih (h.unite i j).1

theorem united_sound (asked : List ((Fin n × Fin n) × Bool)) :
    (united asked).Sound (affirmedGraph asked).reachableSetoid := by
  have hsound := (discrete_sound n).foldl_uniteAffirmed asked
  rw [bot_sup_eq, ← reachableSetoid_fromRel] at hsound
  exact hsound

/-! ## Answers without effects -/

section Pure

variable {ask : α → α → Bool}

/-- The clusters under a question without effects. -/
def pureClusters (ask : α → α → Bool) (data : Vector α n) : Partition n :=
  Id.run (clusters (fun x y => pure (ask x y)) data)

/-- All pairs with the answers that the items give. -/
def pureAnswers (ask : α → α → Bool) (data : Vector α n) : List ((Fin n × Fin n) × Bool) :=
  (orderedPairs n).map fun pair => (pair, ask (data.get pair.1) (data.get pair.2))

theorem pureClusters_eq (ask : α → α → Bool) (data : Vector α n) :
    pureClusters ask data = united (pureAnswers ask data) := by
  have hask : ∀ pair ∈ orderedPairs n, askPair (m := Id) (fun x y => pure (ask x y)) data pair =
      pure (pair, ask (data.get pair.1) (data.get pair.2)) := fun _ _ => rfl
  rw [pureClusters, clusters_eq, mapM_eq_pure hask]
  rfl

theorem mem_pureAnswers {data : Vector α n} {i j : Fin n} :
    ((i, j), true) ∈ pureAnswers ask data ↔ i < j ∧ ask (data.get i) (data.get j) = true := by
  simp only [pureAnswers, List.mem_map, Prod.mk.injEq]
  constructor
  · rintro ⟨pair, hpair, rfl, hyes⟩
    exact ⟨mem_orderedPairs.mp hpair, hyes⟩
  · rintro ⟨hlt, hyes⟩
    exact ⟨(i, j), mem_orderedPairs.mpr hlt, rfl, hyes⟩

theorem affirmedGraph_pureAnswers_adj (hsymm : ∀ x y, ask x y = ask y x) {data : Vector α n}
    {i j : Fin n} :
    (affirmedGraph (pureAnswers ask data)).Adj i j ↔
      i ≠ j ∧ ask (data.get i) (data.get j) = true := by
  rw [affirmedGraph, SimpleGraph.fromRel_adj, mem_pureAnswers, mem_pureAnswers,
    hsymm (data.get j) (data.get i), ← or_and_right, ← ne_iff_lt_or_gt, and_self_left]

/-- The items in another order. -/
def permuted (σ : Equiv.Perm (Fin n)) (data : Vector α n) : Vector α n :=
  Vector.ofFn fun i => data.get (σ i)

/-- Permuting the items renames the vertices. -/
def permutedIso (hsymm : ∀ x y, ask x y = ask y x) (σ : Equiv.Perm (Fin n))
    (data : Vector α n) :
    affirmedGraph (pureAnswers ask (permuted σ data)) ≃g affirmedGraph (pureAnswers ask data) where
  toEquiv := σ
  map_rel_iff' := by
    intro i j
    rw [affirmedGraph_pureAnswers_adj hsymm, affirmedGraph_pureAnswers_adj hsymm,
      σ.injective.ne_iff]
    simp [permuted, Forest.get_eq]

end Pure

/-- Clustering begins with every element on its own, if so many can be held. It puts the question
about each pair of elements once, the lower one first and the pairs in lexicographic order,
whatever the question does and whatever it was answered before.
The sets are the components of the graph in which the affirmed pairs are the edges, and they
are counted right. Under a symmetric question without effects, permuting the items permutes
the sets. -/
theorem clusters_components [LawfulMonad m] (together : α → α → m Bool) (data : Vector α n) :
    (∀ start, ofSize n = .ok start ↔ (n : Int) * 8 ≤ Width.i64.max ∧ start = discrete n) ∧
      (orderedPairs n).Pairwise (Prod.Lex (· < ·) (· < ·)) ∧
      (∀ i j : Fin n, (i, j) ∈ orderedPairs n ↔ i < j) ∧
      clusters together data = united <$> (orderedPairs n).mapM (askPair together data) ∧
      (∀ asked : List ((Fin n × Fin n) × Bool),
        (united asked).Represents (affirmedGraph asked).reachableSetoid ∧
          (united asked).setCount = Nat.card (affirmedGraph asked).ConnectedComponent) ∧
      ∀ ask : α → α → Bool, (∀ x y, ask x y = ask y x) → ∀ σ : Equiv.Perm (Fin n),
        (∀ a b : Fin n, (pureClusters ask (permuted σ data)).sameSet a b =
          (pureClusters ask data).sameSet (σ a) (σ b)) ∧
        (pureClusters ask (permuted σ data)).setCount = (pureClusters ask data).setCount := by
  refine ⟨fun _ => ofSize_eq_ok_iff, pairwise_orderedPairs n, fun _ _ => mem_orderedPairs,
    clusters_eq together data, fun asked => ?_, fun ask hsymm σ => ?_⟩
  · exact ⟨(united_sound asked).represents, (united_sound asked).setCount_eq_card⟩
  · have hbefore := united_sound (pureAnswers ask data)
    have hafter := united_sound (pureAnswers ask (permuted σ data))
    rw [pureClusters_eq, pureClusters_eq]
    refine ⟨fun a b => ?_, ?_⟩
    · rw [sameSet_val, sameSet_val]
      refine congrArg Except.ok (decide_eq_decide.mpr ?_)
      rw [hbefore.root_eq_iff, hafter.root_eq_iff]
      exact (permutedIso hsymm σ data).reachable_iff.symm
    · rw [hbefore.setCount_eq_card, hafter.setCount_eq_card]
      exact Nat.card_congr (permutedIso hsymm σ data).connectedComponentEquiv

/-- Whether the second item is two more than the first. What was asked is written down. -/
def twoMore (x y : Nat) : StateM (List (Nat × Nat)) Bool :=
  fun asked => (decide (y = x + 2), asked ++ [(x, y)])

/-- Whether one of the items is two more than the other. -/
def twoApart (x y : Nat) : Bool := decide (y = x + 2) || decide (x = y + 2)

def fiveItems : Vector Nat 5 := #v[3, 1, 5, 4, 7]

/-- 1 and 3 stay apart where they are asked about as 3 and 1. -/
theorem clusters_components_fiveItems :
    (∃ asked : List ((Fin 5 × Fin 5) × Bool),
      (clusters twoMore fiveItems).run [] = (united asked,
        [(3, 1), (3, 5), (3, 4), (3, 7), (1, 5), (1, 4), (1, 7), (5, 4), (5, 7), (4, 7)]) ∧
      asked.filter Prod.snd = [((0, 2), true), ((2, 4), true)] ∧
      (united asked).sameSet 0 4 = .ok true ∧ (united asked).sameSet 0 1 = .ok false ∧
      Nat.card (affirmedGraph asked).ConnectedComponent = 3) ∧
      (pureClusters twoApart fiveItems).setCount = 2 ∧
      (pureClusters twoApart (permuted (Equiv.swap 1 3) fiveItems)).setCount = 2 ∧
      (pureClusters twoApart (permuted (Equiv.swap 1 3) fiveItems)).sameSet 0 3 =
        (pureClusters twoApart fiveItems).sameSet 0 1 := by
  obtain ⟨-, -, -, hasks, hunited, hpermuted⟩ := clusters_components twoMore fiveItems
  obtain ⟨hsame, hcount⟩ := hpermuted twoApart (fun x y => Bool.or_comm _ _) (Equiv.swap 1 3)
  have htwo : (pureClusters twoApart fiveItems).setCount = 2 := by decide +kernel
  refine ⟨⟨_, by rw [hasks]; rfl, by decide, ?_, ?_, ?_⟩, htwo, hcount.trans htwo, hsame 0 3⟩
  · decide +kernel
  · decide +kernel
  · rw [← (hunited _).2]
    decide +kernel

end PuzzleKit.Partition
