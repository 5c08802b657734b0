import Mathlib.Algebra.Group.Hom.End
import Mathlib.Algebra.Group.Int.Defs
import Mathlib.Algebra.Group.Prod
import Mathlib.Data.Int.ModEq
import PuzzleKit.Proofs.Geometry.Coordinate
import PuzzleKit.Proofs.Geometry.Direction

/-!
# Rotations

A coordinate is rotated by swapping its components and negating some of them, a direction
by counting eighths of a turn. Both come from one map: a quarter turn of pairs of integers
respects sums, and a rotation by a multiple of a right angle is a power of it, for the
numbers of a coordinate (`rotate_eq_fitted`) as for the unit step of a direction
(`offset_turn`). So rotations add up, they carry a step in a direction to a step in the
rotated direction, and they keep distances.

A component that is the least word has no negative. Any other coordinate can be rotated,
and what it is rotated to can be rotated in turn.

Angles are words of 32 bits. Both rotations are also given with every operation on the
angle in checked arithmetic (`rotateWord`), where none of them overflows.
-/

namespace PuzzleKit

variable {w : Width} {p : ℤ × ℤ} {degrees : ℤ}

/-! ## Pairs of integers -/

/-- A quarter turn about the origin, clockwise on screen. -/
def quarterTurn : AddMonoid.End (ℤ × ℤ) where
  toFun p := (-p.2, p.1)
  map_zero' := rfl
  map_add' p q := Prod.ext (neg_add p.2 q.2) rfl

theorem quarterTurn_apply (p : ℤ × ℤ) : quarterTurn p = (-p.2, p.1) := rfl

theorem quarterTurn_pow_four : quarterTurn ^ 4 = 1 := by
  refine AddMonoidHom.ext fun p => ?_
  change (- -p.1, - -p.2) = p
  rw [neg_neg, neg_neg]

/-- The rotation by a multiple of a right angle. -/
def rotation (degrees : ℤ) : AddMonoid.End (ℤ × ℤ) := quarterTurn ^ (degrees / 90 % 4).toNat

theorem rotation_eq_mul {a b e : ℤ} (ha : 90 ∣ a) (hb : 90 ∣ b) (he : e ≡ a + b [ZMOD 360]) :
    rotation e = rotation b * rotation a := by
  obtain ⟨k, rfl⟩ := ha
  obtain ⟨l, rfl⟩ := hb
  have hturns : e % 360 = (90 * k + 90 * l) % 360 := he
  rw [rotation, rotation, rotation, ← pow_add, pow_eq_pow_mod (_ + _) quarterTurn_pow_four]
  congr 1
  omega

/-- What a quarter turn keeps, every rotation does. -/
theorem rotation_preserves {P : ℤ × ℤ → Prop} (hP : ∀ p, P p → P (quarterTurn p))
    (degrees : ℤ) (hp : P p) : P (rotation degrees p) := by
  rw [rotation]
  generalize (degrees / 90 % 4).toNat = n
  induction n with
  | zero => exact hp
  | succ n ih =>
      rw [pow_succ']
      exact hP _ ih

/-- The Manhattan distance to the origin. -/
def size (p : ℤ × ℤ) : ℕ := p.1.natAbs + p.2.natAbs

theorem size_rotation (degrees : ℤ) (p : ℤ × ℤ) : size (rotation degrees p) = size p := by
  refine rotation_preserves (P := fun q => size q = size p) (fun q hq => ?_) degrees rfl
  rw [← hq, quarterTurn_apply, size, size, Int.natAbs_neg, Nat.add_comm]

theorem Coordinate.manhattan_eq_size (a b : Coordinate w) :
    a.manhattan b = size (a.key - b.key) := rfl

/-- Both numbers are in the range of a signed width, and so are their negatives. -/
def Balanced (w : Width) (p : ℤ × ℤ) : Prop := |p.1| ≤ w.max ∧ |p.2| ≤ w.max

theorem Balanced.rotation (h : Balanced w p) (degrees : ℤ) :
    Balanced w (rotation degrees p) :=
  rotation_preserves (fun q hq => ⟨(abs_neg q.2).trans_le hq.2, hq.1⟩) degrees h

/-! ## Coordinates -/

namespace Direction

/-- The unit step. -/
def offset (d : Direction) : ℤ × ℤ := (d.dx, d.dy)

theorem offset_turn_two (d : Direction) : (d.turn 2).offset = quarterTurn d.offset := by
  cases d <;> rfl

end Direction

namespace Coordinate

theorem step_eq_ok_iff_add {a b : Coordinate w} {d : Direction} :
    a.step d = .ok b ↔ b.key = a.key + d.offset := step_eq_ok_iff_key

variable {a b c n : Coordinate w} {d : Direction}

/-- Neither component is the least word of the width. -/
structure Reversible (c : Coordinate w) : Prop where
  x_ne_min : c.x.val ≠ w.min
  y_ne_min : c.y.val ≠ w.min

theorem reversible_iff (hw : w.signed = true) : c.Reversible ↔ Balanced w c.key := by
  have hmin := Word.min_eq_of_signed hw
  have hx := c.x.min_le
  have hx' := c.x.le_max
  have hy := c.y.min_le
  have hy' := c.y.le_max
  rw [Balanced, key, abs_le, abs_le]
  constructor
  · rintro ⟨hne, hne'⟩
    omega
  · intro h
    exact ⟨by omega, by omega⟩

theorem exists_key_eq (hw : w.signed = true) (h : Balanced w p) :
    ∃ c : Coordinate w, c.key = p := by
  obtain ⟨x, -, hx⟩ := Word.exists_fit_of_abs_le .negOverflow hw h.1
  obtain ⟨y, -, hy⟩ := Word.exists_fit_of_abs_le .negOverflow hw h.2
  exact ⟨⟨x, y⟩, Prod.ext hx hy⟩

theorem turned_eq_fitted (a : Coordinate w) {quarters : ℕ} (h : quarters < 4) :
    a.turned (90 * quarters) =
      some (fitted w .negOverflow ((quarterTurn ^ quarters) a.key)) := by
  -- A component that is kept is in range, so fitting it is no further condition.
  obtain rfl | rfl | rfl | rfl : quarters = 0 ∨ quarters = 1 ∨ quarters = 2 ∨ quarters = 3 := by
    omega
  · exact congrArg some (fitted_eq_ok_iff.mpr rfl).symm
  · change some (do return ⟨← a.y.neg, a.x⟩) = some (fitted w .negOverflow (-a.y.val, a.x.val))
    simp only [fitted, Word.fit_val]
    rfl
  · change some a.neg = some (fitted w .negOverflow (-a.x.val, -a.y.val))
    rfl
  · change some (do return ⟨a.y, ← a.x.neg⟩) = some (fitted w .negOverflow (- -a.y.val, -a.x.val))
    simp only [fitted, neg_neg, Word.fit_val]
    rfl

theorem turned_eq_none (a : Coordinate w) (h : ¬90 ∣ degrees) :
    a.turned (degrees % 360) = none := by
  rw [turned, if_neg (by omega), if_neg (by omega), if_neg (by omega), if_neg (by omega)]

/-- A rotation is refused just if a number it leads to has no word. -/
theorem rotate_eq_fitted (a : Coordinate w) (h : 90 ∣ degrees) : a.rotate degrees =
    (fitted w .negOverflow (rotation degrees a.key)).mapError .arithmetic := by
  have hturn : degrees % 360 = 90 * ((degrees / 90 % 4).toNat : ℤ) := by omega
  rw [rotate, hturn, turned_eq_fitted a (by omega)]
  rfl

theorem rotate_eq_ok_iff (h : 90 ∣ degrees) :
    a.rotate degrees = .ok b ↔ b.key = rotation degrees a.key := by
  rw [rotate_eq_fitted a h, mapError_eq_ok_iff, fitted_eq_ok_iff]

theorem rotate_eq_notQuarterTurns_iff {e : ℤ} :
    a.rotate degrees = .error (.notQuarterTurns e) ↔ e = degrees ∧ ¬90 ∣ degrees := by
  by_cases h : 90 ∣ degrees
  · rw [rotate_eq_fitted a h]
    refine ⟨fun hrefused => ?_, fun hrefused => absurd h hrefused.2⟩
    cases hfitted : fitted w .negOverflow (rotation degrees a.key) <;> rw [hfitted] at hrefused <;>
      cases hrefused
  · rw [rotate, turned_eq_none a h]
    simp [h, eq_comm]

theorem Reversible.exists_rotate (hw : w.signed = true) (hc : c.Reversible) (h : 90 ∣ degrees) :
    ∃ c', c.rotate degrees = .ok c' ∧ c'.Reversible ∧ c'.key = rotation degrees c.key := by
  have hbalanced := ((reversible_iff hw).mp hc).rotation degrees
  obtain ⟨c', hkey⟩ := exists_key_eq hw hbalanced
  refine ⟨c', (rotate_eq_ok_iff h).mpr hkey, (reversible_iff hw).mpr ?_, hkey⟩
  rwa [hkey]

/-! ## Steps and distances -/

theorem offset_turn (d : Direction) (h : 90 ∣ degrees) :
    (d.turn (degrees / 45)).offset = rotation degrees d.offset := by
  have hquarters : ∀ n : ℕ, (d.turn (2 * n)).offset = (quarterTurn ^ n) d.offset := by
    intro n
    induction n with
    | zero => cases d <;> rfl
    | succ n ih =>
        have hnext : d.turn (2 * (n + 1 : ℕ)) = (d.turn (2 * n)).turn 2 := by
          rw [Direction.turn_turn]
          congr 1
        rw [hnext, pow_succ', Direction.offset_turn_two, ih]
        rfl
  rw [rotation, ← hquarters]
  refine congrArg _ (d.turn_congr ?_)
  omega

/-- A step from a rotated coordinate in the rotated direction is the rotated step. -/
theorem exists_step_rotate (hw : w.signed = true) (hc : c.Reversible) (hn : n.Reversible)
    (hstep : c.step d = .ok n) (h : 90 ∣ degrees) :
    ∃ c' d' n', c.rotate degrees = .ok c' ∧ d.rotate degrees = .ok d' ∧
      n.rotate degrees = .ok n' ∧ c'.step d' = .ok n' := by
  obtain ⟨c', hc', -, hkey⟩ := hc.exists_rotate hw h
  obtain ⟨n', hn', -, hkey'⟩ := hn.exists_rotate hw h
  have hturn : d.rotate degrees = .ok (d.turn (degrees / 45)) := d.rotate_eq_turn (by omega)
  refine ⟨c', _, n', hc', hturn, hn', step_eq_ok_iff_add.mpr ?_⟩
  rw [hkey', step_eq_ok_iff_add.mp hstep, map_add, hkey, offset_turn d h]

/-- Rotating both of two coordinates keeps the distance, as far as it is returned. -/
theorem exists_distance_rotate (hw : w.signed = true) (hc : c.Reversible) (hn : n.Reversible)
    {r : Word w} (hdistance : c.distance n = .ok r) (h : 90 ∣ degrees) :
    ∃ c' n', c.rotate degrees = .ok c' ∧ n.rotate degrees = .ok n' ∧ c'.distance n' = .ok r := by
  obtain ⟨c', hc', -, hkey⟩ := hc.exists_rotate hw h
  obtain ⟨n', hn', -, hkey'⟩ := hn.exists_rotate hw h
  refine ⟨c', n', hc', hn', (distance_eq_ok_iff hw).mpr ?_⟩
  rw [(distance_eq_ok_iff hw).mp hdistance, manhattan_eq_size, manhattan_eq_size, hkey, hkey',
    ← map_sub, size_rotation]

end Coordinate

/-! ## Angles in words -/

/-- A full turn, in degrees. -/
def fullTurn : Word .i32 := ⟨360, by decide, by decide⟩

/-- An eighth of a full turn, in degrees. -/
def eighthTurn : Word .i32 := ⟨45, by decide, by decide⟩

/-- An angle without its full turns. -/
def withinTurn (degrees : Word .i32) : Except ArithmeticFault (Word .i32) :=
  Coordinate.remainderUp degrees fullTurn

theorem exists_withinTurn (degrees : Word .i32) :
    ∃ turn, withinTurn degrees = .ok turn ∧ turn.val = degrees.val % 360 :=
  Coordinate.exists_remainderUp degrees (by decide)

namespace Direction

variable {turn : ℤ}

/-- The clockwise angle from north, as a word. -/
def degreesWord (d : Direction) : Word .i32 :=
  ⟨d.degrees, by cases d <;> decide, by cases d <;> decide⟩

/-- The direction at an angle, which is looked up among the angles of all directions. -/
def ofDegreesWord (degrees : Word .i32) :
    Except ArithmeticFault (Except DirectionError Direction) := do
  let turn ← withinTurn degrees
  match all.find? fun d => d.degrees = turn.val with
  | some d => return .ok d
  | none => return .error (.degrees degrees.val)

/-- Turn clockwise by an angle. What is added to the angle of the direction is less than a
full turn. -/
def rotateWord (d : Direction) (degrees : Word .i32) :
    Except ArithmeticFault (Except DirectionError Direction) := do
  let part ← degrees.rem eighthTurn
  if part.val ≠ 0 then return .error (.degrees degrees.val)
  let turn ← withinTurn degrees
  let angle ← d.degreesWord.add turn
  ofDegreesWord angle

theorem find?_degrees_of_dvd (h : 45 ∣ turn) (hlow : 0 ≤ turn) (hhigh : turn < 360) :
    (all.find? fun d => d.degrees = turn) = some (ofEighths (turn / 45)) := by
  obtain ⟨k, rfl⟩ := h
  obtain rfl | rfl | rfl | rfl | rfl | rfl | rfl | rfl : k = 0 ∨ k = 1 ∨ k = 2 ∨ k = 3 ∨
    k = 4 ∨ k = 5 ∨ k = 6 ∨ k = 7 := by omega
  all_goals rfl

theorem find?_degrees_of_not_dvd (h : ¬45 ∣ turn) :
    (all.find? fun d => d.degrees = turn) = none := by
  rw [List.find?_eq_none]
  intro d _ hd
  refine h ⟨d.eighths, ?_⟩
  rw [← of_decide_eq_true hd, degrees]

theorem ofDegreesWord_eq (degrees : Word .i32) :
    ofDegreesWord degrees = .ok (ofDegrees degrees.val) := by
  obtain ⟨turn, hturn, hval⟩ := exists_withinTurn degrees
  rw [ofDegreesWord, hturn, ofDegrees]
  by_cases h : 45 ∣ degrees.val
  · have heighths : degrees.val / 45 % 8 = turn.val / 45 % 8 := by omega
    have hfound : (all.find? fun d => d.degrees = turn.val) = some (ofEighths (turn.val / 45)) :=
      find?_degrees_of_dvd (by omega) (by omega) (by omega)
    rw [if_pos (by omega), ofEighths_congr heighths]
    simp only [bind, Except.bind, hfound]
    rfl
  · have hnone : (all.find? fun d => d.degrees = turn.val) = none :=
      find?_degrees_of_not_dvd (by omega)
    rw [if_neg (by omega)]
    simp only [bind, Except.bind, hnone]
    rfl

/-- Neither the sum of the two angles nor a remainder of one overflows. -/
theorem rotateWord_eq (d : Direction) (degrees : Word .i32) :
    d.rotateWord degrees = .ok (d.rotate degrees.val) := by
  obtain ⟨part, hpart, hrem⟩ := Word.exists_rem degrees (b := eighthTurn) (by decide)
  have hzero : part.val = 0 ↔ degrees.val % 45 = 0 := by
    rw [hrem, ← Int.dvd_iff_emod_eq_zero, Int.dvd_iff_tmod_eq_zero]
    rfl
  by_cases h : degrees.val % 45 = 0
  · obtain ⟨turn, hturn, hval⟩ := exists_withinTurn degrees
    have hangle : d.degreesWord.val = 45 * d.eighths := rfl
    have heighths : d.eighths < 8 := by cases d <;> decide
    have hmax : Width.i32.max = 2 ^ 31 - 1 := rfl
    obtain ⟨angle, hadd, hsum⟩ : ∃ angle, d.degreesWord.add turn = .ok angle ∧
        angle.val = d.degreesWord.val + turn.val :=
      Word.exists_fit_of_nonneg _ (by omega) (by omega)
    have hfound : ofDegreesWord angle = .ok (d.rotate degrees.val) := by
      rw [ofDegreesWord_eq, hsum, rotate, if_pos h, hval]
      rfl
    rw [← hfound]
    simp only [rotateWord, hpart, hturn, hadd, bind, Except.bind,
      if_neg (not_not.mpr (hzero.mpr h))]
  · rw [rotate, if_neg h]
    simp only [rotateWord, hpart, bind, Except.bind, if_pos (hzero.not.mpr h)]
    rfl

end Direction

namespace Coordinate

/-- A rotation about the origin, clockwise on screen. -/
def rotateWord (a : Coordinate w) (degrees : Word .i32) :
    Except RotationError (Coordinate w) := do
  let turn ← (withinTurn degrees).mapError .arithmetic
  match a.turned turn.val with
  | none => .error (.notQuarterTurns degrees.val)
  | some result => result.mapError .arithmetic

theorem rotateWord_eq (a : Coordinate w) (degrees : Word .i32) :
    a.rotateWord degrees = a.rotate degrees.val := by
  obtain ⟨turn, hturn, hval⟩ := exists_withinTurn degrees
  rw [rotateWord, hturn, rotate, ← hval]
  rfl

end Coordinate

/-! ## One action of the angles -/

theorem Direction.exists_rotate_add (d : Direction) {a b e : ℤ} (ha : 45 ∣ a) (hb : 45 ∣ b)
    (he : e ≡ a + b [ZMOD 360]) :
    ∃ d' d'', d.rotate a = .ok d' ∧ d'.rotate b = .ok d'' ∧ d.rotate e = .ok d'' := by
  have hturns : e % 360 = (a + b) % 360 := he
  refine ⟨_, _, d.rotate_eq_turn ha, Direction.rotate_eq_turn _ hb, ?_⟩
  rw [d.rotate_eq_turn (by omega), Direction.turn_turn]
  exact congrArg Except.ok (d.turn_congr (by omega))

theorem Coordinate.exists_rotate_add (hw : w.signed = true) {c : Coordinate w}
    (hc : c.Reversible) {a b e : ℤ} (ha : 90 ∣ a) (hb : 90 ∣ b) (he : e ≡ a + b [ZMOD 360]) :
    ∃ c' c'', c.rotate a = .ok c' ∧ c'.rotate b = .ok c'' ∧ c.rotate e = .ok c'' := by
  have hturns : e % 360 = (a + b) % 360 := he
  obtain ⟨c', hc', hreversible, hkey⟩ := hc.exists_rotate hw ha
  obtain ⟨c'', hc'', -, hkey'⟩ := hreversible.exists_rotate hw hb
  refine ⟨c', c'', hc', hc'', (rotate_eq_ok_iff (by omega)).mpr ?_⟩
  rw [hkey', hkey, rotation_eq_mul ha hb he]
  rfl

/-- An angle is refused just if it is no multiple of what the rotation takes, and nothing
that is done with the angle overflows. The other angles act on coordinates and on
directions in the same way: they add up, and they keep steps and distances. -/
theorem rotations_act (hw : w.signed = true) (c : Coordinate w) (d : Direction) :
    (∀ degrees : Word .i32,
      c.rotateWord degrees = c.rotate degrees.val ∧
        (∀ e, c.rotate degrees.val = .error (.notQuarterTurns e) ↔
          e = degrees.val ∧ ¬90 ∣ degrees.val) ∧
        d.rotateWord degrees = .ok (d.rotate degrees.val) ∧
        ∀ e, d.rotate degrees.val = .error e ↔ e = .degrees degrees.val ∧ ¬45 ∣ degrees.val) ∧
      (∀ a b e : ℤ, 45 ∣ a → 45 ∣ b → e ≡ a + b [ZMOD 360] →
        ∃ d' d'', d.rotate a = .ok d' ∧ d'.rotate b = .ok d'' ∧ d.rotate e = .ok d'') ∧
      (c.Reversible → ∀ a : ℤ, 90 ∣ a →
        (∀ b e : ℤ, 90 ∣ b → e ≡ a + b [ZMOD 360] →
          ∃ c' c'', c.rotate a = .ok c' ∧ c'.rotate b = .ok c'' ∧ c.rotate e = .ok c'') ∧
        (∀ n : Coordinate w, n.Reversible → c.step d = .ok n →
          ∃ c' d' n', c.rotate a = .ok c' ∧ d.rotate a = .ok d' ∧ n.rotate a = .ok n' ∧
            c'.step d' = .ok n') ∧
        ∀ (n : Coordinate w) (r : Word w), n.Reversible → c.distance n = .ok r →
          ∃ c' n', c.rotate a = .ok c' ∧ n.rotate a = .ok n' ∧ c'.distance n' = .ok r) := by
  refine ⟨fun degrees => ⟨c.rotateWord_eq degrees, ?_, d.rotateWord_eq degrees, ?_⟩, ?_, ?_⟩
  · exact fun e => Coordinate.rotate_eq_notQuarterTurns_iff
  · exact fun e => Direction.rotate_eq_error_iff
  · exact fun a b e ha hb he => d.exists_rotate_add ha hb he
  · refine fun hc a ha => ⟨?_, ?_, ?_⟩
    · exact fun b e hb he => Coordinate.exists_rotate_add hw hc ha hb he
    · exact fun n hn hstep => Coordinate.exists_step_rotate hw hc hn hstep ha
    · exact fun n r hn hdistance => Coordinate.exists_distance_rotate hw hc hn hdistance ha

def farWest : Coordinate .i16 := ⟨⟨-32767, by decide, by decide⟩, ⟨60, by decide, by decide⟩⟩

def lessFarWest : Coordinate .i16 := ⟨⟨-32766, by decide, by decide⟩, ⟨59, by decide, by decide⟩⟩

def twoApart : Word .i16 := ⟨2, by decide, by decide⟩

/-- Turning back by more than a full turn, from next to the edge of the width. -/
theorem rotations_act_farWest :
    farWest.Reversible ∧ lessFarWest.Reversible ∧
      farWest.step .northEast = .ok lessFarWest ∧ farWest.distance lessFarWest = .ok twoApart ∧
      (∃ c' c'', farWest.rotate (-450) = .ok c' ∧ c'.rotate 630 = .ok c'' ∧
        farWest.rotate 180 = .ok c'') ∧
      (∃ c' d' n', farWest.rotate (-450) = .ok c' ∧ Direction.northEast.rotate (-450) = .ok d' ∧
        lessFarWest.rotate (-450) = .ok n' ∧ c'.step d' = .ok n') ∧
      ∃ c' n', farWest.rotate (-450) = .ok c' ∧ lessFarWest.rotate (-450) = .ok n' ∧
        c'.distance n' = .ok twoApart := by
  have hfar : farWest.Reversible := ⟨by decide, by decide⟩
  have hless : lessFarWest.Reversible := ⟨by decide, by decide⟩
  have hstep : farWest.step .northEast = .ok lessFarWest := by decide
  have hdistance : farWest.distance lessFarWest = .ok twoApart := by decide
  obtain ⟨-, -, hact⟩ := rotations_act (w := .i16) rfl farWest .northEast
  obtain ⟨hadd, hsteps, hdistances⟩ := hact hfar (-450) (by decide)
  exact ⟨hfar, hless, hstep, hdistance, hadd 630 180 (by decide) (by decide),
    hsteps _ hless hstep, hdistances _ _ hless hdistance⟩

end PuzzleKit
