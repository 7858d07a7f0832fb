import Mathlib.Data.Nat.Bitwise
import Mathlib.Data.Nat.Size
import Mathlib.Tactic.Linarith
import Mathlib.Tactic.Positivity
import Mathlib.Tactic.Ring

/-!
# Numbers as lists of machine words

A number of many digits is kept as a list of words of one width, the most significant word
first. What the usual loops over such lists do is said by the number the list stands for: sums,
differences and small products carry from the least significant end, comparison and division by
a small number go from the most significant one.
-/

namespace Positional

open List

variable {w : Nat}

/-- The number a list of words stands for. -/
def value : List (BitVec w) → Nat
  | [] => 0
  | digit :: rest => digit.toNat * 2 ^ (w * rest.length) + value rest

@[simp] theorem value_nil : value ([] : List (BitVec w)) = 0 := rfl

theorem value_cons (digit : BitVec w) (rest : List (BitVec w)) :
    value (digit :: rest) = digit.toNat * 2 ^ (w * rest.length) + value rest := rfl

theorem two_pow_succ_mul (n : Nat) : 2 ^ (w * (n + 1)) = 2 ^ w * 2 ^ (w * n) := by
  rw [← pow_add]
  congr 1
  ring

theorem value_lt (digits : List (BitVec w)) : value digits < 2 ^ (w * digits.length) := by
  induction digits with
  | nil => simp
  | cons digit rest ih =>
    have below : digit.toNat + 1 ≤ 2 ^ w := digit.isLt
    calc value (digit :: rest)
        < digit.toNat * 2 ^ (w * rest.length) + 2 ^ (w * rest.length) := by
          rw [value_cons]
          omega
      _ = (digit.toNat + 1) * 2 ^ (w * rest.length) := by ring
      _ ≤ 2 ^ w * 2 ^ (w * rest.length) := Nat.mul_le_mul_right _ below
      _ = 2 ^ (w * (digit :: rest).length) := (two_pow_succ_mul _).symm

@[simp] theorem value_replicate_zero {count : Nat} : value
    (List.replicate count (0 : BitVec w)) = 0 := by
  induction count with
  | zero => rfl
  | succ count ih =>
    rw [replicate_succ, value_cons, ih]
    simp

variable {left right digits : List (BitVec w)}

/-- Different lists of one length stand for different numbers. -/
theorem value_injective (same : left.length = right.length) (equal : value left = value right) :
    left = right := by
  induction left generalizing right with
  | nil => exact (length_eq_zero_iff.mp same.symm).symm
  | cons digit rest ih =>
    cases right with
    | nil => simp at same
    | cons other others =>
      have same : rest.length = others.length := by simpa using same
      have below := value_lt rest
      have otherBelow := value_lt others
      rw [value_cons, value_cons, same] at equal
      rw [same] at below
      have first : digit.toNat = other.toNat := by
        have quotient := congrArg (· / 2 ^ (w * others.length)) equal
        simpa [Nat.mul_add_div, mul_comm _ (2 ^ (w * others.length)), Nat.div_eq_of_lt below,
          Nat.div_eq_of_lt otherBelow] using quotient
      rw [first, add_left_cancel_iff] at equal
      rw [BitVec.eq_of_toNat_eq first, ih same equal]

/-- Only zeros stand for zero. -/
theorem eq_replicate_of_value_eq_zero (zero : value digits = 0) :
    digits = List.replicate digits.length 0 :=
  value_injective (by simp) (zero.trans (value_replicate_zero).symm)

/-- A word put in place of a zero adds its own weight. -/
theorem value_set {position : Nat} (inside : position < digits.length)
    (zero : digits.getD position 0 = 0) (digit : BitVec w) :
    value (digits.set position digit) =
      value digits + digit.toNat * 2 ^ (w * (digits.length - 1 - position)) := by
  induction digits generalizing position with
  | nil => simp at inside
  | cons first rest ih =>
    cases position with
    | zero =>
      have zero : first = 0 := zero
      subst zero
      rw [set_cons_zero, value_cons, value_cons]
      simp
      ring
    | succ position =>
      have inside : position < rest.length := by simpa using inside
      have zero : rest.getD position 0 = 0 := by simpa using zero
      rw [set_cons_succ, value_cons, value_cons, ih inside zero, length_set, length_cons, add_assoc]
      have same : rest.length + 1 - 1 - (position + 1) = rest.length - 1 - position := by omega
      rw [same]

/-- A bit of the number is a bit of the word it falls into, the words counted from the least
significant one on. -/
theorem testBit_value (positive : 0 < w) (digits : List (BitVec w)) (place : Nat) :
    (value digits).testBit place = (digits.reverse.getD (place / w) 0).getLsbD (place % w) := by
  induction digits with
  | nil => simp
  | cons digit rest ih =>
    rw [value_cons, mul_comm, Nat.testBit_two_pow_mul_add _ (value_lt rest), reverse_cons]
    have level : place < w * rest.length ↔ place / w < rest.length := by
      rw [Nat.div_lt_iff_lt_mul positive, mul_comm]
    split_ifs with low
    · rw [ih, getD_append _ _ _ _ (by simpa using level.mp low)]
    · have high := not_lt.mp (mt level.mpr low)
      rw [getD_append_right _ _ _ _ (by simpa using high), length_reverse]
      obtain same | above := high.eq_or_lt
      · have split := Nat.div_add_mod place w
        rw [← same] at split
        rw [← same, Nat.sub_self, ← Nat.add_sub_cancel_left (n := w * rest.length)
          (m := place % w), split]
        rfl
      · have beyond : w ≤ place - w * rest.length := by
          have next := Nat.mul_le_mul_left w (Nat.succ_le_of_lt above)
          have under := Nat.mul_div_le place w
          rw [Nat.mul_succ] at next
          omega
        rw [BitVec.testBit_toNat, BitVec.getLsbD_of_ge _ _ beyond, getD_eq_default]
        · simp
        · simp
          omega

theorem value_append (left right : List (BitVec w)) :
    value (left ++ right) = value left * 2 ^ (w * right.length) + value right := by
  induction left with
  | nil => simp
  | cons digit rest ih =>
    rw [cons_append, value_cons, value_cons, ih, length_append, mul_add, pow_add]
    ring

/-- Turning every bit over takes the number from the largest one. -/
theorem value_map_not (digits : List (BitVec w)) :
    value (digits.map fun digit => ~~~digit) = 2 ^ (w * digits.length) - 1 - value digits := by
  induction digits with
  | nil => rfl
  | cons digit rest ih =>
    have below := value_lt rest
    have small := digit.isLt
    have total : value (digit :: rest) + (value (rest.map fun digit => ~~~digit) +
        (~~~digit).toNat * 2 ^ (w * rest.length)) + 1 = 2 ^ (w * (rest.length + 1)) := by
      rw [two_pow_succ_mul, ih, value_cons, BitVec.toNat_not]
      have whole : digit.toNat + (2 ^ w - 1 - digit.toNat) + 1 = 2 ^ w := by omega
      calc _ = (digit.toNat + (2 ^ w - 1 - digit.toNat)) * 2 ^ (w * rest.length) +
            (value rest + (2 ^ (w * rest.length) - 1 - value rest) + 1) := by ring
        _ = (digit.toNat + (2 ^ w - 1 - digit.toNat) + 1) * 2 ^ (w * rest.length) := by
            rw [show value rest + (2 ^ (w * rest.length) - 1 - value rest) + 1 =
              2 ^ (w * rest.length) by omega]
            ring
        _ = _ := by rw [whole]
    rw [map_cons, value_cons, length_map, length_cons]
    omega

/-- The last words of a number. -/
def digitsOf (w : Nat) : Nat → Nat → List (BitVec w)
  | 0, _ => []
  | count + 1, number => BitVec.ofNat w (number / 2 ^ (w * count)) :: digitsOf w count number

@[simp] theorem length_digitsOf (count number : Nat) :
    (digitsOf w count number).length = count := by
  induction count with
  | zero => rfl
  | succ count ih => rw [digitsOf, length_cons, ih]

theorem value_digitsOf (count number : Nat) :
    value (digitsOf w count number) = number % 2 ^ (w * count) := by
  induction count with
  | zero => simp [digitsOf, Nat.mod_one]
  | succ count ih =>
    rw [digitsOf, value_cons, ih, length_digitsOf, BitVec.toNat_ofNat, two_pow_succ_mul,
      mul_comm (2 ^ w), Nat.mod_mul]
    ring

/-! ## Carries -/

section Carry

variable {α : Type*} (weigh : α → Int)

/-- Weigh each place from the least significant end on, keep a word of it and carry the rest. The
carry out of the most significant place is returned. -/
def carry (w : Nat) : List α → Int → List (BitVec w) × Int
  | [], carried => ([], carried)
  | place :: rest, carried =>
    let (digits, carried) := carry w rest carried
    let sum := weigh place + carried
    (BitVec.ofInt w sum :: digits, sum / 2 ^ w)

/-- The sum of all places. -/
def weight (w : Nat) : List α → Int
  | [] => 0
  | place :: rest => weigh place * 2 ^ (w * rest.length) + weight w rest

theorem carry_length {places : List α} {carried : Int} :
    (carry weigh w places carried).1.length = places.length := by
  induction places with
  | nil => rfl
  | cons place rest ih => simp [carry, ih]

theorem carry_value (places : List α) (carried : Int) :
    (value (carry weigh w places carried).1 : Int) +
        (carry weigh w places carried).2 * 2 ^ (w * places.length) =
      weight weigh w places + carried := by
  induction places with
  | nil => simp [carry, weight]
  | cons place rest ih =>
    set lower := carry weigh w rest carried with isLower
    set sum := weigh place + lower.2 with isSum
    have split : sum % 2 ^ w + 2 ^ w * (sum / 2 ^ w) = sum := Int.emod_add_mul_ediv sum _
    have digit : ((BitVec.ofInt w sum).toNat : Int) = sum % 2 ^ w := by
      rw [BitVec.toNat_ofInt, Int.toNat_of_nonneg (Int.emod_nonneg _ (by positivity))]
      push_cast
      rfl
    have power : (2 : Int) ^ (w * (rest.length + 1)) = 2 ^ w * 2 ^ (w * rest.length) := by
      exact_mod_cast two_pow_succ_mul (w := w) rest.length
    have length : lower.1.length = rest.length := carry_length weigh
    simp only [carry, weight, value_cons, length_cons, power, ← isLower, ← isSum, length]
    push_cast
    rw [digit]
    calc sum % 2 ^ w * 2 ^ (w * rest.length) + value lower.1 +
          sum / 2 ^ w * (2 ^ w * 2 ^ (w * rest.length))
        = (sum % 2 ^ w + 2 ^ w * (sum / 2 ^ w)) * 2 ^ (w * rest.length) + value lower.1 := by ring
      _ = weigh place * 2 ^ (w * rest.length) +
            (value lower.1 + lower.2 * 2 ^ (w * rest.length)) := by
          rw [split, isSum]
          ring
      _ = weigh place * 2 ^ (w * rest.length) + weight weigh w rest + carried := by
          rw [ih]
          ring

end Carry

/-- The sum of words weighed with a factor. -/
theorem weight_mul (factor : Int) (digits : List (BitVec w)) :
    weight (fun digit : BitVec w => digit.toNat * factor) w digits = value digits * factor := by
  induction digits with
  | nil => simp [weight]
  | cons digit rest ih =>
    rw [weight, ih, value_cons]
    push_cast
    ring

theorem weight_toNat (digits : List (BitVec w)) :
    weight (fun digit : BitVec w => (digit.toNat : Int)) w digits = value digits := by
  simpa using weight_mul 1 digits

theorem weight_zip (first second : BitVec w → Int) (same : left.length = right.length) :
    weight (fun pair : BitVec w × BitVec w => first pair.1 + second pair.2) w (left.zip right) =
      weight first w left + weight second w right := by
  induction left generalizing right with
  | nil => simp [weight, length_eq_zero_iff.mp same.symm]
  | cons digit rest ih =>
    cases right with
    | nil => simp at same
    | cons other others =>
      have same : rest.length = others.length := by simpa using same
      rw [zip_cons_cons, weight, weight, weight, ih same, length_zip, same, min_self]
      ring

/-- A sum that fits comes out with no carry. -/
theorem carry_exact {α : Type*} (weigh : α → Int) (places : List α) (carried : Int)
    (nonneg : 0 ≤ weight weigh w places + carried)
    (fits : weight weigh w places + carried < 2 ^ (w * places.length)) :
    (value (carry weigh w places carried).1 : Int) = weight weigh w places + carried := by
  have sum := carry_value (w := w) weigh places carried
  have below := value_lt (carry weigh w places carried).1
  rw [carry_length] at below
  rcases lt_trichotomy (carry weigh w places carried).2 0 with negative | zero | positive
  · nlinarith
  · rw [zero] at sum
    linarith
  · nlinarith

/-! ## Comparison -/

/-- Compare from the most significant end. -/
def compare : List (BitVec w) → List (BitVec w) → Ordering
  | left :: lefts, right :: rights =>
    if right.toNat < left.toNat then .gt
    else if left.toNat < right.toNat then .lt
    else compare lefts rights
  | _, _ => .eq

theorem value_cons_lt {left right : BitVec w} (lower : left.toNat < right.toNat)
    {lefts rights : List (BitVec w)} (same : lefts.length = rights.length) :
    value (left :: lefts) < value (right :: rights) := by
  have below := value_lt lefts
  calc value (left :: lefts) < (left.toNat + 1) * 2 ^ (w * lefts.length) := by
        rw [value_cons, add_mul]
        omega
    _ ≤ right.toNat * 2 ^ (w * lefts.length) := Nat.mul_le_mul_right _ lower
    _ ≤ value (right :: rights) := by
        rw [value_cons, same]
        exact Nat.le_add_right _ _

theorem compare_eq (same : left.length = right.length) :
    compare left right = Ord.compare (value left) (value right) := by
  induction left generalizing right with
  | nil =>
    cases right with
    | nil => rfl
    | cons other others => simp at same
  | cons digit rest ih =>
    cases right with
    | nil => simp at same
    | cons other others =>
      have same : rest.length = others.length := by simpa using same
      rw [compare]
      split_ifs with above below
      · exact (Nat.compare_eq_gt.mpr (value_cons_lt above same.symm)).symm
      · exact (Nat.compare_eq_lt.mpr (value_cons_lt below same)).symm
      · have equal : digit.toNat = other.toNat := by omega
        rw [ih same, value_cons, value_cons, equal, same]
        simp only [Nat.compare_eq_ite_lt, Nat.add_lt_add_iff_left]

/-- The lower words do not reach the highest bit. -/
theorem size_value_cons {digit : BitVec w} (nonzero : digit ≠ 0) (rest : List (BitVec w)) :
    (value (digit :: rest)).size = digit.toNat.size + w * rest.length := by
  have positive : 0 < digit.toNat.size := by
    rw [Nat.size_pos, Nat.pos_iff_ne_zero]
    exact fun zero => nonzero (BitVec.eq_of_toNat_eq (by simpa using zero))
  apply le_antisymm
  · rw [Nat.size_le, pow_add]
    calc value (digit :: rest) < (digit.toNat + 1) * 2 ^ (w * rest.length) := by
          rw [value_cons, add_mul]
          have := value_lt rest
          omega
      _ ≤ 2 ^ digit.toNat.size * 2 ^ (w * rest.length) :=
          Nat.mul_le_mul_right _ (Nat.lt_size_self _)
  · have lower : 2 ^ (digit.toNat.size - 1) ≤ digit.toNat := Nat.lt_size.mp (by omega)
    have highest : 2 ^ (digit.toNat.size - 1 + w * rest.length) ≤ value (digit :: rest) := by
      rw [pow_add, value_cons]
      exact (Nat.mul_le_mul_right _ lower).trans (Nat.le_add_right _ _)
    have := Nat.lt_size.mpr highest
    omega

/-! ## Division by a small number -/

/-- Divide from the most significant end. The remainder is returned. -/
def divSmall (divisor : Nat) : List (BitVec w) → Nat → List (BitVec w) × Nat
  | [], remainder => ([], remainder)
  | digit :: rest, remainder =>
    let current := remainder * 2 ^ w + digit.toNat
    let (quotient, out) := divSmall divisor rest (current % divisor)
    (BitVec.ofNat w (current / divisor) :: quotient, out)

theorem divSmall_length {divisor : Nat} {digits : List (BitVec w)} {remainder : Nat} :
    (divSmall divisor digits remainder).1.length = digits.length := by
  induction digits generalizing remainder with
  | nil => rfl
  | cons digit rest ih => simp [divSmall, ih]

/-- The remainder stays below the divisor, so each word of the quotient fits. -/
theorem divSmall_value {divisor : Nat} (digits : List (BitVec w)) {remainder : Nat}
    (small : remainder < divisor) :
    value (divSmall divisor digits remainder).1 =
      (remainder * 2 ^ (w * digits.length) + value digits) / divisor := by
  induction digits generalizing remainder with
  | nil => simp [divSmall, Nat.div_eq_of_lt small]
  | cons digit rest ih =>
    set current := remainder * 2 ^ w + digit.toNat with isCurrent
    have positive : 0 < divisor := by omega
    have fits : current / divisor < 2 ^ w := by
      apply Nat.div_lt_of_lt_mul
      calc current < remainder * 2 ^ w + 2 ^ w := Nat.add_lt_add_left digit.isLt _
        _ = (remainder + 1) * 2 ^ w := by ring
        _ ≤ divisor * 2 ^ w := Nat.mul_le_mul_right _ small
    have split : current / divisor * divisor + current % divisor = current :=
      Nat.div_add_mod' current divisor
    simp only [divSmall, value_cons, divSmall_length, BitVec.toNat_ofNat, ← isCurrent,
      Nat.mod_eq_of_lt fits, length_cons, two_pow_succ_mul,
      ih (Nat.mod_lt current positive)]
    rw [add_comm, ← Nat.add_mul_div_right _ _ positive]
    congr 1
    calc current % divisor * 2 ^ (w * rest.length) + value rest +
          current / divisor * 2 ^ (w * rest.length) * divisor
        = (current / divisor * divisor + current % divisor) * 2 ^ (w * rest.length) +
            value rest := by ring
      _ = remainder * (2 ^ w * 2 ^ (w * rest.length)) +
            (digit.toNat * 2 ^ (w * rest.length) + value rest) := by
          rw [split, isCurrent]
          ring

end Positional
