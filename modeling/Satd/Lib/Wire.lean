import Mathlib.Tactic

/-!
# Integers on the wire

Fixed-width integers are written least significant byte first. Lengths are
written in the compact format: one byte below `0xfd`, or a marker byte and a
fixed-width integer.
-/

namespace Wire

/-- The `width` low bytes of a number, least significant first. -/
def leBytes : Nat → Nat → List UInt8
  | 0, _ => []
  | width + 1, value => UInt8.ofNat (value % 256) :: leBytes width (value / 256)

/-- The number written by a list of bytes, least significant first. -/
def leNat : List UInt8 → Nat
  | [] => 0
  | byte :: rest => byte.toNat + 256 * leNat rest

@[simp] theorem leBytes_length (width value : Nat) : (leBytes width value).length = width := by
  induction width generalizing value with
  | zero => rfl
  | succ width ih => simp [leBytes, ih]

/-- Reading back a number that fits its width gives the number. -/
theorem leNat_leBytes {width value : Nat} (fits : value < 256 ^ width) :
    leNat (leBytes width value) = value := by
  induction width generalizing value with
  | zero =>
    simp only [pow_zero, Nat.lt_one_iff] at fits
    simp [leBytes, leNat, fits]
  | succ width ih =>
    have quotient : value / 256 < 256 ^ width := by
      rw [pow_succ] at fits
      exact Nat.div_lt_of_lt_mul (by rwa [mul_comm] at fits)
    have byte : (UInt8.ofNat (value % 256)).toNat = value % 256 := by
      simp
    simp only [leBytes, leNat, byte, ih quotient]
    omega

theorem leNat_lt {bytes : List UInt8} : leNat bytes < 256 ^ bytes.length := by
  induction bytes with
  | nil => simp [leNat]
  | cons byte rest ih =>
    have low := byte.toNat_lt
    simp only [leNat, List.length_cons, pow_succ]
    omega

theorem leNat_append (front back : List UInt8) :
    leNat (front ++ back) = leNat front + 256 ^ front.length * leNat back := by
  induction front with
  | nil => simp [leNat]
  | cons byte rest ih =>
    rw [List.cons_append, leNat, ih, leNat, List.length_cons, pow_succ]
    ring

/-- Writing back the number that a list of bytes writes gives the bytes. -/
theorem leBytes_leNat (bytes : List UInt8) : leBytes bytes.length (leNat bytes) = bytes := by
  induction bytes with
  | nil => rfl
  | cons byte rest ih =>
    have low := byte.toNat_lt
    have remainder : (byte.toNat + 256 * leNat rest) % 256 = byte.toNat := by omega
    have quotient : (byte.toNat + 256 * leNat rest) / 256 = leNat rest := by omega
    simp [leBytes, leNat, remainder, quotient, ih, UInt8.ofNat_toNat]

variable (value : Nat)

/-- The compact encoding of a length. -/
def compactSize : List UInt8 :=
  if value < 0xfd then [UInt8.ofNat value]
  else if value ≤ 0xffff then 0xfd :: leBytes 2 value
  else if value ≤ 0xffffffff then 0xfe :: leBytes 4 value
  else 0xff :: leBytes 8 value

/-- The number of bytes of the compact encoding. -/
def compactSizeLength : Nat :=
  if value < 0xfd then 1
  else if value ≤ 0xffff then 3
  else if value ≤ 0xffffffff then 5
  else 9

@[simp] theorem compactSize_length : (compactSize value).length = compactSizeLength value := by
  unfold compactSize compactSizeLength
  split
  · rfl
  · split
    · simp
    · split <;> simp

theorem compactSizeLength_le : compactSizeLength value ≤ 9 := by
  unfold compactSizeLength
  split_ifs <;> omega

end Wire
