import PuzzleKit.Partition.Basic

/-!
# Clusters

Items are clustered by asking, for each pair of them and in the order of their
positions, whether the two belong together. The answers need not be those of
an equivalence; the clusters are the sets that result from uniting every pair
for which the answer was yes.
-/

namespace PuzzleKit.Partition

variable {n : Nat}

/-- The pairs of elements with the lower one first, in lexicographic order. -/
def orderedPairs (n : Nat) : List (Fin n × Fin n) :=
  (List.finRange n).flatMap fun i =>
    ((List.finRange n).filter fun j => i < j).map fun j => (i, j)

/-- Ask about one pair, and unite it if the answer is yes. -/
def uniteIf {m : Type → Type} [Monad m] {α : Type} (together : α → α → m Bool)
    (data : Vector α n) (p : Partition n) (pair : Fin n × Fin n) : m (Partition n) := do
  if ← together data[pair.1] data[pair.2] then return (p.unite pair.1 pair.2).2
  return p

/-- The clusters under a question that may have effects. -/
def clusters {m : Type → Type} [Monad m] {α : Type} (together : α → α → m Bool)
    (data : Vector α n) : m (Partition n) :=
  (orderedPairs n).foldlM (uniteIf together data) (discrete n)

/-- The report on a clustering. -/
def clusterLog (p : Partition n) : LogEntry :=
  ⟨.debug, s!"clustered {n} items into {p.setCount} sets"⟩

end PuzzleKit.Partition
