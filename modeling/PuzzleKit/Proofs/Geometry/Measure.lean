import Mathlib.Algebra.BigOperators.Fin
import Mathlib.Algebra.Order.BigOperators.Group.List
import Mathlib.Algebra.Order.Ring.Abs
import PuzzleKit.Proofs.Geometry.Coordinate

/-!
# Exact measures

A measure of points takes differences, absolute values, products and partial sums, and
each of them has to fit the width. What a component adds to a sum is never negative,
though, so no partial sum is greater than the whole; and no difference is greater than
its absolute value or its square. Hence nothing on the way overflows unless the exact
measure does, in any order of the components, and a measure is the word of an exact
integer or it is refused (`ExactOrRefused`).

This needs a signed width: an unsigned one has not all the differences of its words.
-/

namespace PuzzleKit

variable {w : Width} {α : Type} {a b c r : Word w} {v : Int}
  {result : Except ArithmeticFault (Word w)}

namespace Word

/-- The word of an exact integer if the width has it, and a fault otherwise. -/
structure ExactOrRefused (result : Except ArithmeticFault (Word w)) (v : Int) : Prop where
  exact : w.min ≤ v → v ≤ w.max → ∃ c, result = .ok c ∧ c.val = v
  refused : ¬(w.min ≤ v ∧ v ≤ w.max) → ∃ fault, result = .error fault

theorem exactOrRefused_iff : ExactOrRefused result v ↔ ∀ c, result = .ok c ↔ c.val = v := by
  constructor
  · intro h c
    constructor
    · rintro rfl
      by_cases hfits : w.min ≤ v ∧ v ≤ w.max
      · obtain ⟨c', hc', hval⟩ := h.exact hfits.1 hfits.2
        cases hc'
        exact hval
      · obtain ⟨fault, hfault⟩ := h.refused hfits
        cases hfault
    · intro hval
      obtain ⟨c', hc', hval'⟩ := h.exact (hval ▸ c.min_le) (hval ▸ c.le_max)
      rw [hc', ext (hval'.trans hval.symm)]
  · intro h
    refine ⟨fun hmin hmax => ⟨⟨v, hmin, hmax⟩, (h _).mpr rfl, rfl⟩, fun hout => ?_⟩
    cases hresult : result with
    | error fault => exact ⟨fault, rfl⟩
    | ok c =>
        have hval := (h c).mp hresult
        exact absurd ⟨hval ▸ c.min_le, hval ▸ c.le_max⟩ hout

theorem abs_eq_ok_iff : a.abs = .ok c ↔ c.val = |a.val| := by rw [abs_eq_fit, fit_eq_ok_iff]

/-- A difference that is no further from zero than some word is a word. -/
theorem exists_sub (hw : w.signed = true) (h : |a.val - b.val| ≤ c.val) :
    ∃ difference, a.sub b = .ok difference ∧ difference.val = a.val - b.val :=
  exists_fit_of_abs_le .subOverflow hw (h.trans c.le_max)

theorem absDifference_eq_ok_iff (hw : w.signed = true) :
    (do (← a.sub b).abs) = .ok c ↔ c.val = |a.val - b.val| := by
  rw [bind_eq_ok_iff]
  constructor
  · rintro ⟨difference, hsub, habs⟩
    rw [abs_eq_ok_iff.mp habs, fit_eq_ok_iff.mp hsub]
  · intro h
    obtain ⟨difference, hsub, hval⟩ := exists_sub hw h.ge
    exact ⟨difference, hsub, abs_eq_ok_iff.mpr (hval ▸ h)⟩

theorem squaredDifference_eq_ok_iff (hw : w.signed = true) :
    (do
      let difference ← a.sub b
      difference.mul difference) = .ok c ↔ c.val = (a.val - b.val) ^ 2 := by
  rw [bind_eq_ok_iff]
  constructor
  · rintro ⟨difference, hsub, hmul⟩
    rw [fit_eq_ok_iff.mp hmul, fit_eq_ok_iff.mp hsub, sq]
  · intro h
    have hle : |a.val - b.val| ≤ c.val := by
      rw [h, ← sq_abs]
      exact Int.le_self_sq _
    obtain ⟨difference, hsub, hval⟩ := exists_sub hw hle
    refine ⟨difference, hsub, fit_eq_ok_iff.mpr ?_⟩
    rw [h, hval, sq]

end Word

/-! ## Sums of components -/

namespace Point

section Sum

variable {measure : α → Except ArithmeticFault (Word w)} {size : α → Int}

/-- Partial sums only grow, so that one that is out of range never comes back. -/
theorem foldlM_add_eq_ok_iff (hmeasure : ∀ a c, measure a = .ok c ↔ c.val = size a)
    (hsize : ∀ a, 0 ≤ size a) {total : Word w} (htotal : 0 ≤ total.val) {components : List α} :
    components.foldlM (fun total a => do total.add (← measure a)) total = .ok r ↔
      r.val = total.val + (components.map size).sum := by
  induction components generalizing total with
  | nil =>
      rw [List.foldlM_nil, List.map_nil, List.sum_nil, add_zero, ← Word.ext_iff]
      exact ⟨fun h => by cases h; rfl, fun h => by cases h; rfl⟩
  | cons a components ih =>
      rw [List.foldlM_cons, bind_eq_ok_iff, List.map_cons, List.sum_cons, ← add_assoc]
      have hfirst := hsize a
      constructor
      · rintro ⟨next, hnext, hrest⟩
        obtain ⟨summand, hsummand, hadd⟩ := bind_eq_ok_iff.mp hnext
        have hval : next.val = total.val + size a := by
          rw [Word.fit_eq_ok_iff.mp hadd, (hmeasure a summand).mp hsummand]
        rw [← hval]
        exact (ih (by omega)).mp hrest
      · intro h
        have hrest : 0 ≤ (components.map size).sum :=
          List.sum_nonneg (List.forall_mem_map.mpr fun a _ => hsize a)
        have hmax := r.le_max
        obtain ⟨summand, -, hsummand⟩ :=
          Word.exists_fit_of_nonneg (w := w) .addOverflow hfirst (by omega)
        obtain ⟨next, hadd, hval⟩ := Word.exists_fit_of_nonneg (w := w)
          (v := total.val + summand.val) .addOverflow (by omega) (by omega)
        rw [hsummand] at hval
        refine ⟨next, bind_eq_ok_iff.mpr ⟨summand, (hmeasure a summand).mpr hsummand, hadd⟩, ?_⟩
        exact (ih (by omega)).mpr (hval ▸ h)

theorem sumM_eq_ok_iff (hmeasure : ∀ a c, measure a = .ok c ↔ c.val = size a)
    (hsize : ∀ a, 0 ≤ size a) {components : List α} :
    sumM measure components = .ok r ↔ r.val = (components.map size).sum := by
  rw [sumM, foldlM_add_eq_ok_iff hmeasure hsize (le_refl (0 : Int))]
  exact iff_of_eq (congrArg (r.val = ·) (zero_add _))

end Sum

variable {d : Nat}

theorem sum_map_zip (size : Word w × Word w → Int) (a b : Point w d) :
    ((a.toList.zip b.toList).map size).sum = ∑ i, size (a.get i, b.get i) := by
  rw [← List.sum_ofFn]
  refine congrArg List.sum (List.ext_getElem (by simp) fun i _ _ => ?_)
  simp only [List.getElem_map, List.getElem_zip, List.getElem_ofFn]
  rfl

theorem sum_map_toList (size : Word w → Int) (a : Point w d) :
    (a.toList.map size).sum = ∑ i, size (a.get i) := by
  rw [← List.sum_ofFn]
  refine congrArg List.sum (List.ext_getElem (by simp) fun i _ _ => ?_)
  simp only [List.getElem_map, List.getElem_ofFn]
  rfl

variable {a b : Point w d}

theorem manhattanDistance_eq_ok_iff (hw : w.signed = true) :
    a.manhattanDistance b = .ok r ↔ r.val = ∑ i, |(a.get i).val - (b.get i).val| := by
  rw [← sum_map_zip (fun c => |c.1.val - c.2.val|) a b]
  exact sumM_eq_ok_iff (fun _ _ => Word.absDifference_eq_ok_iff hw) fun _ => abs_nonneg _

theorem manhattanNorm_eq_ok_iff : a.manhattanNorm = .ok r ↔ r.val = ∑ i, |(a.get i).val| := by
  rw [← sum_map_toList (fun c => |c.val|) a]
  exact sumM_eq_ok_iff (fun _ _ => Word.abs_eq_ok_iff) fun _ => abs_nonneg _

theorem distanceSquared_eq_ok_iff (hw : w.signed = true) :
    a.distanceSquared b = .ok r ↔ r.val = ∑ i, ((a.get i).val - (b.get i).val) ^ 2 := by
  rw [← sum_map_zip (fun c => (c.1.val - c.2.val) ^ 2) a b]
  exact sumM_eq_ok_iff (fun _ _ => Word.squaredDifference_eq_ok_iff hw) fun _ => sq_nonneg _

theorem manhattanDistance_comm (hw : w.signed = true) :
    a.manhattanDistance b = .ok r ↔ b.manhattanDistance a = .ok r := by
  simp only [manhattanDistance_eq_ok_iff hw, abs_sub_comm]

theorem distanceSquared_comm (hw : w.signed = true) :
    a.distanceSquared b = .ok r ↔ b.distanceSquared a = .ok r := by
  simp only [distanceSquared_eq_ok_iff hw, sub_sq_comm]

/-- Adding to zero is never refused, so the sum of two is one addition. -/
theorem sumM_pair (measure : α → Except ArithmeticFault (Word w)) (p q : α) :
    sumM measure [p, q] = measure p >>= fun m => measure q >>= fun n => m.add n := by
  have hzero : ∀ m : Word w, (0 : Word w).add m = .ok m := fun m =>
    Word.fit_eq_ok_iff.mpr (zero_add m.val).symm
  simp only [sumM, List.foldlM_cons, List.foldlM_nil, bind_assoc, bind_pure]
  cases measure p with
  | error fault => rfl
  | ok m =>
      change (0 : Word w).add m >>= _ = _
      rw [hzero]

end Point

/-! ## Coordinates as points of two components -/

namespace Coordinate

theorem distance_eq_manhattanDistance (a b : Coordinate w) :
    a.distance b = a.toPoint.manhattanDistance b.toPoint := by
  refine Eq.trans ?_ (Point.sumM_pair _ (a.x, b.x) (a.y, b.y)).symm
  simp only [distance, bind_assoc]

theorem distanceToOrigin_eq_manhattanNorm (a : Coordinate w) :
    a.distanceToOrigin = a.toPoint.manhattanNorm := (Point.sumM_pair _ a.x a.y).symm

theorem distanceToOrigin_eq_ok_iff {a : Coordinate w} :
    a.distanceToOrigin = .ok r ↔ r.val = |a.x.val| + |a.y.val| := by
  rw [distanceToOrigin_eq_manhattanNorm, Point.manhattanNorm_eq_ok_iff, Fin.sum_univ_two]
  rfl

theorem distance_comm (hw : w.signed = true) {a b : Coordinate w} :
    a.distance b = .ok r ↔ b.distance a = .ok r := by
  rw [distance_eq_manhattanDistance, distance_eq_manhattanDistance,
    Point.manhattanDistance_comm hw]

end Coordinate

/-- A distance is the word of the exact one if there is such a word, and it is refused
otherwise. So it is the same from either end, or refused from both, although it is not
always the same operation that is at fault. -/
theorem distances_exactOrRefused {d : Nat} (hw : w.signed = true) (p q : Point w d)
    (a b : Coordinate w) :
    (Word.ExactOrRefused (p.manhattanDistance q) (∑ i, |(p.get i).val - (q.get i).val|) ∧
      Word.ExactOrRefused p.manhattanNorm (∑ i, |(p.get i).val|) ∧
      Word.ExactOrRefused (p.distanceSquared q) (∑ i, ((p.get i).val - (q.get i).val) ^ 2) ∧
      Word.ExactOrRefused (a.distance b) (|a.x.val - b.x.val| + |a.y.val - b.y.val|) ∧
      Word.ExactOrRefused a.distanceToOrigin (|a.x.val| + |a.y.val|)) ∧
    (∀ r, p.manhattanDistance q = .ok r ↔ q.manhattanDistance p = .ok r) ∧
    (∀ r, p.distanceSquared q = .ok r ↔ q.distanceSquared p = .ok r) ∧
    (∀ r, a.distance b = .ok r ↔ b.distance a = .ok r) ∧
    a.distance b = a.toPoint.manhattanDistance b.toPoint := by
  refine ⟨⟨?_, ?_, ?_, ?_, ?_⟩, fun r => Point.manhattanDistance_comm hw,
    fun r => Point.distanceSquared_comm hw, fun r => Coordinate.distance_comm hw,
    Coordinate.distance_eq_manhattanDistance a b⟩
  · exact Word.exactOrRefused_iff.mpr fun _ => Point.manhattanDistance_eq_ok_iff hw
  · exact Word.exactOrRefused_iff.mpr fun _ => Point.manhattanNorm_eq_ok_iff
  · exact Word.exactOrRefused_iff.mpr fun _ => Point.distanceSquared_eq_ok_iff hw
  · refine Word.exactOrRefused_iff.mpr fun _ => ?_
    rw [Coordinate.distance_eq_ok_iff hw, Coordinate.manhattan, Nat.cast_add,
      Int.natCast_natAbs, Int.natCast_natAbs]
  · exact Word.exactOrRefused_iff.mpr fun _ => Coordinate.distanceToOrigin_eq_ok_iff

def westEnd : Coordinate .i8 := ⟨Word.minimum .i8, 0⟩

def eastEnd : Coordinate .i8 := ⟨Word.maximum .i8, 0⟩

/-- The east end is just near enough to the origin. The west end is not, from either side,
and the difference fits one way only. -/
theorem distances_exactOrRefused_westEnd :
    (∃ r, eastEnd.toPoint.manhattanDistance Coordinate.origin.toPoint = .ok r ∧ r.val = 127) ∧
      (∃ fault, westEnd.distance Coordinate.origin = .error fault) ∧
      (∃ fault, Coordinate.origin.distance westEnd = .error fault) ∧
      westEnd.distance Coordinate.origin ≠ Coordinate.origin.distance westEnd := by
  obtain ⟨⟨hnear, -, -, hfar, -⟩, -⟩ := distances_exactOrRefused (w := .i8) rfl eastEnd.toPoint
    Coordinate.origin.toPoint westEnd Coordinate.origin
  obtain ⟨⟨-, -, -, hback, -⟩, -⟩ := distances_exactOrRefused (w := .i8) rfl eastEnd.toPoint
    Coordinate.origin.toPoint Coordinate.origin westEnd
  exact ⟨hnear.exact (by decide) (by decide), hfar.refused (by decide),
    hback.refused (by decide), by decide⟩

end PuzzleKit
