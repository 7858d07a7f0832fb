import Satd.Lib.Outcome

/-!
# Machine arithmetic

Integer operators on fixed-width types behave in one of two ways when their
result does not fit, depending on how the program was built: they panic, or
they wrap around. `Build` records which. Operands and results are unbounded
numbers with the width as a parameter, so that a caller sees the same value in
both builds whenever the result fits.

Lengths and positions in slices are plain natural numbers. No slice is longer
than half the address space, so sums of a position and a decoded length stay
inside the 64-bit word; only their subtractions are given a wrapping case.
-/

namespace Rust

universe u

/-- How the program was built. -/
structure Build where
  /-- Arithmetic that does not fit panics instead of wrapping around. -/
  overflowChecks : Bool
  deriving DecidableEq, Repr

namespace Build

variable {ε α : Type u}

/-- The result of an operation that does not fit its type. -/
def overflow (build : Build) (wrapped : α) : Outcome ε α :=
  if build.overflowChecks then .panic else .ok wrapped

end Build

namespace Build

variable {ε : Type}

/-- Addition of unsigned numbers of the given width. -/
def add (build : Build) (bits left right : Nat) : Outcome ε Nat :=
  if left + right < 2 ^ bits then .ok (left + right)
  else build.overflow ((left + right) % 2 ^ bits)

/-- Subtraction of unsigned numbers of the given width. -/
def sub (build : Build) (bits left right : Nat) : Outcome ε Nat :=
  if right ≤ left then .ok (left - right) else build.overflow (left + 2 ^ bits - right)

/-- The value is one of a signed type of the given width: its magnitude is below
the bound, or it is the least value of the type. -/
def FitsSigned (bits : Nat) (value : Int) : Prop :=
  value.natAbs < 2 ^ (bits - 1) ∨ value = -((2 ^ (bits - 1) : Nat) : Int)

instance (bits : Nat) (value : Int) : Decidable (FitsSigned bits value) :=
  inferInstanceAs (Decidable (_ ∨ _))

/-- A signed result of the given width: the exact value when it fits, its
two's-complement reduction otherwise. -/
def signed (build : Build) (bits : Nat) (value : Int) : Outcome ε Int :=
  if FitsSigned bits value then .ok value else build.overflow (value.bmod (2 ^ bits))

/-- A shift by at least the width of its operand does not fit; without checks
the amount is reduced modulo the width. -/
def shiftAmount (build : Build) (bits amount : Nat) : Outcome ε Nat :=
  if amount < bits then .ok amount else build.overflow (amount % bits)

/-- Cast of an unsigned 64-bit number to a signed one. -/
def toI64 (value : Nat) : Int :=
  if value < 2 ^ 63 then value else value - ((2 ^ 64 : Nat) : Int)

variable {left right bits : Nat} {value : Int} {build : Build}

@[simp] theorem sub_of_le {build : Build} {bits : Nat} (fits : right ≤ left) :
    (build.sub bits left right : Outcome ε Nat) = .ok (left - right) := by
  simp [sub, fits]

theorem add_of_lt (build : Build) (fits : left + right < 2 ^ bits) :
    (build.add bits left right : Outcome ε Nat) = .ok (left + right) := by
  simp [add, fits]

theorem signed_of_fits {build : Build} (fits : FitsSigned bits value) :
    (build.signed bits value : Outcome ε Int) = .ok value := by
  simp [signed, fits]

theorem shiftAmount_of_lt (build : Build) {amount : Nat} (fits : amount < bits) :
    (build.shiftAmount bits amount : Outcome ε Nat) = .ok amount := by
  simp [shiftAmount, fits]

/-- Addition is safe when it fits or wraps. -/
theorem add_safe (fits : build.overflowChecks = true → left + right < 2 ^ bits) :
    Outcome.Safe (build.add bits left right : Outcome ε Nat)
      (fun sum => build.overflowChecks = true → sum = left + right) := by
  by_cases small : left + right < 2 ^ bits
  · simp [add_of_lt build small]
  · have unchecked : build.overflowChecks = false := by
      cases checks : build.overflowChecks with
      | false => rfl
      | true => exact absurd (fits checks) small
    simp [add, small, overflow, unchecked]

/-- A signed result is safe when it fits or wraps. -/
theorem signed_safe (fits : build.overflowChecks = true → FitsSigned bits value) :
    Outcome.Safe (build.signed bits value : Outcome ε Int)
      (fun result => build.overflowChecks = true → result = value) := by
  by_cases small : FitsSigned bits value
  · simp [signed_of_fits small]
  · have unchecked : build.overflowChecks = false := by
      cases checks : build.overflowChecks with
      | false => rfl
      | true => exact absurd (fits checks) small
    simp [signed, small, overflow, unchecked]

end Build

/-- Sequencing rule for a subtraction that fits, in every build. -/
theorem Outcome.Safe.sub {ε β : Type} {build : Build} {bits left right : Nat}
    {next : Nat → Outcome ε β} {final : β → Prop} (fits : right ≤ left)
    (rest : Safe (next (left - right)) final) :
      Safe (build.sub bits left right >>= next) final := by
  rw [Build.sub_of_le fits]
  exact rest

end Rust
