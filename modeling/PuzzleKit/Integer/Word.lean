/-!
# Machine integers

A puzzle's numbers live in a machine word of a stated width, and an answer
that does not fit is reported, never wrapped. A `Word w` is an integer
together with the proof that it lies in the range of the width `w`, so every
operation either returns a value of the type or names the fault that stopped
it. Widths are data and not a fixed list: the same definitions serve eight
bits and a hundred and twenty-eight, signed and unsigned.
-/

namespace PuzzleKit

/-- The shape of a machine integer: its number of bits, and whether the top
bit is a sign. Two bits are the least that hold the steps -1, 0 and 1. -/
structure Width where
  signed : Bool
  bits : Nat
  two_le_bits : 2 ≤ bits
deriving DecidableEq

namespace Width

def i8 : Width := ⟨true, 8, by decide⟩
def i16 : Width := ⟨true, 16, by decide⟩
def i32 : Width := ⟨true, 32, by decide⟩
def i64 : Width := ⟨true, 64, by decide⟩
def i128 : Width := ⟨true, 128, by decide⟩
def u8 : Width := ⟨false, 8, by decide⟩
def u16 : Width := ⟨false, 16, by decide⟩
def u32 : Width := ⟨false, 32, by decide⟩
def u64 : Width := ⟨false, 64, by decide⟩
def u128 : Width := ⟨false, 128, by decide⟩

def all : List Width := [i8, i16, i32, i64, i128, u8, u16, u32, u64, u128]

/-- The name of a width: its kind and its number of bits. -/
def name (w : Width) : String := (if w.signed then "i" else "u") ++ toString w.bits

/-- The width with a name; an integer of the size of an address has 64 bits. -/
def ofName? (name : String) : Option Width :=
  if name = "isize" then some i64
  else if name = "usize" then some u64
  else all.find? fun w => w.name = name

/-- The least value of the width. -/
def min (w : Width) : Int :=
  if w.signed then -(Nat.pow 2 (w.bits - 1) : Int) else 0

/-- The greatest value of the width. -/
def max (w : Width) : Int :=
  if w.signed then (Nat.pow 2 (w.bits - 1) : Int) - 1 else (Nat.pow 2 w.bits : Int) - 1

theorem two_pow_pos (n : Nat) : (0 : Int) < (Nat.pow 2 n : Int) :=
  Int.natCast_pos.2 (Nat.two_pow_pos n)

theorem two_le_two_pow {n : Nat} (h : 1 ≤ n) : (2 : Int) ≤ (Nat.pow 2 n : Int) := by
  have hle : Nat.pow 2 1 ≤ Nat.pow 2 n := Nat.pow_le_pow_right (by decide) h
  have htwo : Nat.pow 2 1 = 2 := rfl
  omega

theorem min_le_zero (w : Width) : w.min ≤ 0 := by
  unfold min
  split
  · have := two_pow_pos (w.bits - 1)
    omega
  · exact Int.le_refl 0

theorem one_le_max (w : Width) : 1 ≤ w.max := by
  have hb := w.two_le_bits
  unfold max
  split
  · have := two_le_two_pow (n := w.bits - 1) (by omega)
    omega
  · have := two_le_two_pow (n := w.bits) (by omega)
    omega

end Width

/-- An integer in the range of `w`. -/
structure Word (w : Width) where
  val : Int
  min_le : w.min ≤ val
  le_max : val ≤ w.max
deriving DecidableEq

namespace Word

variable {w : Width}

theorem ext {a b : Word w} (h : a.val = b.val) : a = b := by
  cases a
  cases b
  cases h
  rfl

/-- The word of an integer, if the integer is in range. -/
def ofInt? (w : Width) (v : Int) : Option (Word w) :=
  if h : w.min ≤ v ∧ v ≤ w.max then some ⟨v, h.1, h.2⟩ else none

instance : Zero (Word w) :=
  ⟨⟨0, w.min_le_zero, Int.le_trans (by decide) w.one_le_max⟩⟩

instance : One (Word w) :=
  ⟨⟨1, Int.le_trans w.min_le_zero (by decide), w.one_le_max⟩⟩

instance : Inhabited (Word w) := ⟨0⟩

instance : Hashable (Word w) := ⟨fun a => hash a.val⟩

instance : Ord (Word w) := ⟨fun a b => compare a.val b.val⟩

instance : LE (Word w) := ⟨fun a b => a.val ≤ b.val⟩

instance : LT (Word w) := ⟨fun a b => a.val < b.val⟩

instance (a b : Word w) : Decidable (a ≤ b) := inferInstanceAs (Decidable (a.val ≤ b.val))

instance (a b : Word w) : Decidable (a < b) := inferInstanceAs (Decidable (a.val < b.val))

instance : Max (Word w) := ⟨fun a b => if a ≤ b then b else a⟩

instance : Min (Word w) := ⟨fun a b => if a ≤ b then a else b⟩

/-- The least word of a width. -/
def minimum (w : Width) : Word w :=
  ⟨w.min, Int.le_refl _,
    Int.le_trans w.min_le_zero (Int.le_trans (by decide) w.one_le_max)⟩

/-- The greatest word of a width. -/
def maximum (w : Width) : Word w :=
  ⟨w.max, Int.le_trans w.min_le_zero (Int.le_trans (by decide) w.one_le_max), Int.le_refl _⟩

/-- The same integer in another width, if it fits there. -/
def cast? (a : Word w) (v : Width) : Option (Word v) := ofInt? v a.val

end Word

end PuzzleKit
