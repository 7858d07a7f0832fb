import Mathlib.Tactic.Linarith

/-!
# Signed numbers that saturate

A signed number of a given width carries the proof that it fits. Addition,
subtraction and multiplication stop at the ends of the type; division and
remainder are defined where the exact result fits.
-/

namespace Rust

/-- A number of a signed type of the given width. -/
@[ext] structure Signed (bits : Nat) where
  toInt : Int
  lower : -((2 ^ (bits - 1) : Nat) : Int) ≤ toInt
  upper : toInt < ((2 ^ (bits - 1) : Nat) : Int)
  deriving DecidableEq

namespace Signed

variable {bits : Nat}

instance : LE (Signed bits) := ⟨fun left right => left.toInt ≤ right.toInt⟩
instance : LT (Signed bits) := ⟨fun left right => left.toInt < right.toInt⟩
instance (left right : Signed bits) : Decidable (left ≤ right) := Int.decLe _ _
instance (left right : Signed bits) : Decidable (left < right) := Int.decLt _ _

/-- The number of the type closest to the given one. -/
def saturate (bits : Nat) (value : Int) : Signed bits where
  toInt := max (-((2 ^ (bits - 1) : Nat) : Int)) (min value (((2 ^ (bits - 1) : Nat) : Int) - 1))
  lower := le_max_left _ _
  upper := by
    have positive : 0 < 2 ^ (bits - 1) := Nat.two_pow_pos _
    omega

def greatest (bits : Nat) : Signed bits := saturate bits (((2 ^ (bits - 1) : Nat) : Int) - 1)

def saturatingAdd (left right : Signed bits) : Signed bits :=
  saturate bits (left.toInt + right.toInt)

def saturatingSub (left right : Signed bits) : Signed bits :=
  saturate bits (left.toInt - right.toInt)

def saturatingMul (left right : Signed bits) : Signed bits :=
  saturate bits (left.toInt * right.toInt)

/-- The number, where it is one of the type. -/
def exact (bits : Nat) (value : Int) : Option (Signed bits) :=
  if fits : -((2 ^ (bits - 1) : Nat) : Int) ≤ value ∧ value < ((2 ^ (bits - 1) : Nat) : Int) then
    some ⟨value, fits.1, fits.2⟩
  else none

/-- Division that rounds towards zero. -/
def checkedDiv (left right : Signed bits) : Option (Signed bits) :=
  if right.toInt = 0 then none else exact bits (left.toInt.tdiv right.toInt)

/-- The remainder of `checkedDiv`; it is missing where the quotient is. -/
def checkedRem (left right : Signed bits) : Option (Signed bits) :=
  if (checkedDiv left right).isSome then exact bits (left.toInt.tmod right.toInt) else none

theorem saturate_of_fits {value : Int} (lower : -((2 ^ (bits - 1) : Nat) : Int) ≤ value)
    (upper : value < ((2 ^ (bits - 1) : Nat) : Int)) : (saturate bits value).toInt = value := by
  simp only [saturate]
  omega

/-- Counting up one at a time, with every addition saturating, saturates once. -/
theorem saturatingAdd_one {count : Nat} :
    (saturate bits (count : Int)).saturatingAdd (saturate bits 1) =
      saturate bits ((count + 1 : Nat) : Int) := by
  apply Signed.ext
  simp only [saturatingAdd, saturate]
  push_cast
  omega

end Signed

end Rust
