import Satd.Chain.Compact

/-!
# The work of a block

The work of a block is the number of hashes its target asks for: 2 ^ 256 over one more than the
target. It is computed within 256 bits, on four limbs. The divisor is complemented and divided by
itself, by shifting and subtracting, and one is added. That is the quotient of 2 ^ 256 - 1, which
is one too low where the divisor is a power of two.

The loops with a carry or a borrow are those of numbers as lists of words. What each function on
bytes or limbs does is said by the number they stand for.
-/

namespace Satd.Storage.BlockIndex

open Positional List

/-! ## Bytes -/

/-- Add two numbers of 32 bytes. A carry out of the first byte leaves the largest number. -/
def addU256 (left right : U256) : U256 :=
  let sum := carry (fun pair : BitVec 8 × BitVec 8 => pair.1.toNat + pair.2.toNat) 8
    (left.bytes.zip right.bytes) 0
  if sum.2 ≠ 0 then ⟨replicate 32 0xff, rfl⟩
  else ⟨sum.1, by simp [sum, carry_length, left.length_eq, right.length_eq]⟩

def addOneU256 (number : U256) : U256 :=
  ⟨(carry (fun byte : BitVec 8 => byte.toNat) 8 number.bytes 1).1,
    (carry_length _).trans number.length_eq⟩

theorem addU256_toNat (left right : U256) :
    (addU256 left right).toNat = Chain.addU256 left.toNat right.toNat := by
  have sum := carry_value (w := 8)
    (fun pair : BitVec 8 × BitVec 8 => (pair.1.toNat : Int) + pair.2.toNat)
    (left.bytes.zip right.bytes) 0
  have weight := weight_zip (fun byte : BitVec 8 => (byte.toNat : Int))
    (fun byte : BitVec 8 => (byte.toNat : Int)) (left.length_eq.trans right.length_eq.symm)
  have below := value_lt (carry (fun pair : BitVec 8 × BitVec 8 =>
    (pair.1.toNat : Int) + pair.2.toNat) 8 (left.bytes.zip right.bytes) 0).1
  rw [weight, weight_toNat, weight_toNat, length_zip, left.length_eq, right.length_eq] at sum
  rw [carry_length, length_zip, left.length_eq, right.length_eq] at below
  simp only [min_self, Nat.reduceMul] at sum below
  have small := left.toNat_lt
  have smallRight := right.toNat_lt
  have largest : value (replicate 32 (0xff : BitVec 8)) = 2 ^ 256 - 1 := by decide
  rw [addU256, Chain.addU256]
  simp only [U256.toNat] at *
  split_ifs with carried
  · rw [largest]
    omega
  · rw [not_not] at carried
    rw [carried] at sum
    dsimp only
    omega

theorem addOneU256_toNat (number : U256) :
    (addOneU256 number).toNat = (number.toNat + 1) % 2 ^ 256 := by
  have sum := carry_value (w := 8) (fun byte : BitVec 8 => (byte.toNat : Int)) number.bytes 1
  have below := (addOneU256 number).toNat_lt
  rw [weight_toNat, number.length_eq] at sum
  simp only [U256.toNat, addOneU256] at below ⊢
  omega

/-! ## Limbs -/

/-- A number of 256 bits as four limbs, the least significant one first. -/
structure Limbs where
  limbs : List (BitVec 64)
  length_eq : limbs.length = 4

namespace Limbs

variable (number : Limbs)

def limb (i : Nat) : BitVec 64 := number.limbs.getD i 0

def digits : List (BitVec 64) := number.limbs.reverse

def toNat : Nat := value number.digits

def ofFn (limb : Nat → BitVec 64) : Limbs := ⟨(range 4).map limb, rfl⟩

def ofDigits (digits : List (BitVec 64)) (length_eq : digits.length = 4) : Limbs :=
  ⟨digits.reverse, length_reverse.trans length_eq⟩

theorem length_digits : number.digits.length = 4 := length_reverse.trans number.length_eq

theorem toNat_lt : number.toNat < 2 ^ 256 := by
  have below := value_lt number.digits
  rwa [number.length_digits] at below

theorem toNat_eq :
    number.toNat = value [number.limb 3, number.limb 2, number.limb 1, number.limb 0] := by
  obtain ⟨limbs, length⟩ := number
  obtain ⟨first, second, third, fourth, rfl⟩ := length_eq_four.mp length
  rfl

@[simp] theorem toNat_ofDigits {digits : List (BitVec 64)} (length_eq : digits.length = 4) :
    (ofDigits digits length_eq).toNat = value digits := by
  rw [toNat, Limbs.digits, ofDigits, reverse_reverse]

theorem limb_ofFn (limb : Nat → BitVec 64) (i : Nat) :
    (ofFn limb).limb i = if i < 4 then limb i else 0 := by
  rw [Limbs.limb, ofFn]
  split_ifs with inside
  · interval_cases i <;> rfl
  · exact getD_eq_default _ _ (by simpa using inside)

theorem testBit_toNat (place : Nat) :
    number.toNat.testBit place = (number.limb (place / 64)).getLsbD (place % 64) := by
  rw [toNat, testBit_value (by decide), digits, reverse_reverse]
  rfl

end Limbs

/-- The limbs of the bytes, eight bytes to a limb. -/
def limbsOf (number : U256) : Limbs :=
  .ofFn fun i => BitVec.ofNat 64 (value ((number.bytes.drop ((3 - i) * 8)).take 8))

def bytesOf (number : Limbs) : U256 :=
  ⟨number.digits.flatMap fun limb => digitsOf 8 8 limb.toNat, by simp [number.length_digits]⟩

theorem limbsOf_toNat (number : U256) : (limbsOf number).toNat = number.toNat := by
  have split : ∀ bytes : List (BitVec 8), value bytes =
      value (bytes.take 8) * 2 ^ (8 * (bytes.length - 8)) + value (bytes.drop 8) := by
    intro bytes
    conv_lhs => rw [← take_append_drop 8 bytes, value_append, length_drop]
  have word : ∀ start, (BitVec.ofNat 64 (value ((number.bytes.drop start).take 8))).toNat =
      value ((number.bytes.drop start).take 8) := by
    intro start
    have below := value_lt ((number.bytes.drop start).take 8)
    have short : ((number.bytes.drop start).take 8).length ≤ 8 := length_take_le ..
    rw [BitVec.toNat_ofNat, Nat.mod_eq_of_lt]
    exact below.trans_le (Nat.pow_le_pow_right (by decide) (by omega))
  have last : value ((number.bytes.drop 24).drop 8) = 0 := by
    rw [drop_drop, drop_eq_nil_of_le (by rw [number.length_eq]), value_nil]
  change value [_, _, _, _] = _
  simp only [value_cons, word, value_nil, length_cons, length_nil]
  rw [U256.toNat, split number.bytes, split (number.bytes.drop 8), drop_drop,
    split (number.bytes.drop 16), drop_drop, split (number.bytes.drop 24), last]
  simp only [length_drop, number.length_eq]
  norm_num

theorem bytesOf_toNat (number : Limbs) : (bytesOf number).toNat = number.toNat := by
  have all : ∀ digits : List (BitVec 64),
      value (digits.flatMap fun limb => digitsOf 8 8 limb.toNat) = value digits := by
    intro digits
    induction digits with
    | nil => rfl
    | cons limb rest ih =>
      have length : (rest.flatMap fun limb => digitsOf 8 8 limb.toNat).length =
          8 * rest.length := by
        simp [mul_comm]
      rw [flatMap_cons, value_append, ih, value_digitsOf, Nat.mod_eq_of_lt limb.isLt, length,
        ← Nat.mul_assoc, value_cons]
  exact all number.digits

section Division

variable (number left right : Limbs)

def leadingZerosU256Le : List (BitVec 64) → Nat
  | [] => 0
  | limb :: rest => if limb ≠ 0 then 64 - limb.toNat.size else 64 + leadingZerosU256Le rest

def shlU256Le (shift : Nat) : Limbs :=
  if 256 ≤ shift then .ofFn fun _ => 0
  else .ofFn fun i =>
    if shift / 64 ≤ i then
      number.limb (i - shift / 64) <<< (shift % 64) |||
        if 0 < shift % 64 ∧ shift / 64 < i then
          number.limb (i - shift / 64 - 1) >>> (64 - shift % 64)
        else 0
    else 0

def shrU256Le (shift : Nat) : Limbs :=
  if 256 ≤ shift then .ofFn fun _ => 0
  else .ofFn fun i =>
    if i < 4 - shift / 64 then
      number.limb (i + shift / 64) >>> (shift % 64) |||
        if 0 < shift % 64 ∧ i + shift / 64 + 1 < 4 then
          number.limb (i + shift / 64 + 1) <<< (64 - shift % 64)
        else 0
    else 0

def gteU256Le : Bool := Positional.compare left.digits right.digits ≠ .lt

/-- A borrow is a carry of minus one. -/
def subU256Le : Limbs :=
  .ofDigits (carry (fun pair : BitVec 64 × BitVec 64 => (pair.1.toNat : Int) - pair.2.toNat) 64
    (left.digits.zip right.digits) 0).1
    (by simp [carry_length, Limbs.length_digits])

def addOneLimbs : Limbs :=
  .ofDigits (carry (fun limb : BitVec 64 => limb.toNat) 64 number.digits 1).1
    ((carry_length _).trans number.length_digits)

/-- Set one bit. -/
def setBit (i : Nat) : Limbs :=
  .ofFn fun j => if j = i / 64 then number.limb j ||| 1#64 <<< (i % 64) else number.limb j

variable {number left right}

theorem size_toNat : 256 - leadingZerosU256Le number.digits = number.toNat.size := by
  have general : ∀ digits : List (BitVec 64),
      leadingZerosU256Le digits + (value digits).size = 64 * digits.length := by
    intro digits
    induction digits with
    | nil => rfl
    | cons limb rest ih =>
      rw [leadingZerosU256Le]
      split_ifs with nonzero
      · have width := Nat.size_le.mpr limb.isLt
        rw [size_value_cons nonzero, length_cons]
        omega
      · obtain rfl := not_not.mp nonzero
        rw [value_cons, length_cons]
        simp
        omega
  have whole := general number.digits
  rw [number.length_digits] at whole
  rw [Limbs.toNat]
  omega

theorem shlU256Le_toNat (shift : Nat) :
    (shlU256Le number shift).toNat = number.toNat * 2 ^ shift % 2 ^ 256 := by
  apply Nat.eq_of_testBit_eq
  intro place
  rw [Limbs.testBit_toNat, Nat.testBit_mod_two_pow, Nat.testBit_mul_two_pow,
    Limbs.testBit_toNat, shlU256Le]
  have under := Nat.mod_lt place (show 0 < 64 by decide)
  split_ifs with beyond
  · have none : ¬ (place < 256 ∧ shift ≤ place) := by omega
    rw [Limbs.limb_ofFn]
    grind
  rw [Limbs.limb_ofFn]
  -- The bit comes from the lower of the two limbs that meet in this one, or from the higher.
  rcases le_or_gt (shift % 64) (place % 64) with high | low
  · have source : shift ≤ place → (place - shift) / 64 = place / 64 - shift / 64 ∧
      (place - shift) % 64 = place % 64 - shift % 64 := by omega
    have reached : shift ≤ place ↔ shift / 64 ≤ place / 64 := by omega
    have inside : place < 256 ↔ place / 64 < 4 := by omega
    have other : ∀ limb : BitVec 64, 0 < shift % 64 →
        limb.getLsbD (64 - shift % 64 + place % 64) = false :=
      fun limb some => BitVec.getLsbD_of_ge _ _ (by omega)
    grind
  · have source : shift ≤ place → (place - shift) / 64 = place / 64 - shift / 64 - 1 ∧
      (place - shift) % 64 = 64 - shift % 64 + place % 64 := by omega
    have reached : shift ≤ place ↔ shift / 64 < place / 64 := by omega
    have inside : place < 256 ↔ place / 64 < 4 := by omega
    grind

theorem shrU256Le_toNat (shift : Nat) :
    (shrU256Le number shift).toNat = number.toNat / 2 ^ shift := by
  apply Nat.eq_of_testBit_eq
  intro place
  rw [Limbs.testBit_toNat, Nat.testBit_div_two_pow, Limbs.testBit_toNat, shrU256Le]
  have under := Nat.mod_lt place (show 0 < 64 by decide)
  have width : ∀ i, 4 ≤ i → number.limb i = 0 := by
    intro i beyond
    exact getD_eq_default _ _ (by rw [number.length_eq]; exact beyond)
  split_ifs with beyond
  · have none := width ((place + shift) / 64) (by omega)
    rw [Limbs.limb_ofFn]
    grind
  rw [Limbs.limb_ofFn]
  rcases lt_or_ge (place % 64 + shift % 64) 64 with here | above
  · have source : (place + shift) / 64 = place / 64 + shift / 64 ∧
      (place + shift) % 64 = shift % 64 + place % 64 := by omega
    have other := width (place / 64 + shift / 64)
    grind
  · have source : (place + shift) / 64 = place / 64 + shift / 64 + 1 ∧
      (place + shift) % 64 = place % 64 - (64 - shift % 64) := by omega
    have other := width (place / 64 + shift / 64 + 1)
    have none : ∀ limb : BitVec 64, limb.getLsbD (shift % 64 + place % 64) = false :=
      fun limb => BitVec.getLsbD_of_ge _ _ (by omega)
    grind

theorem gteU256Le_iff : gteU256Le left right = true ↔ right.toNat ≤ left.toNat := by
  rw [gteU256Le, compare_eq (left.length_digits.trans right.length_digits.symm), decide_eq_true_iff,
    Nat.compare_ne_lt]
  rfl

theorem subU256Le_toNat (le : right.toNat ≤ left.toNat) :
    (subU256Le left right).toNat = left.toNat - right.toNat := by
  have same := left.length_digits.trans right.length_digits.symm
  have weight : weight (fun pair : BitVec 64 × BitVec 64 => (pair.1.toNat : Int) - pair.2.toNat) 64
      (left.digits.zip right.digits) = left.toNat - right.toNat := by
    have both := weight_zip (fun limb : BitVec 64 => (limb.toNat : Int))
      (fun limb => limb.toNat * (-1)) same
    rw [weight_toNat, weight_mul] at both
    simpa [sub_eq_add_neg, Limbs.toNat] using both
  have below := left.toNat_lt
  have exact := carry_exact (w := 64) (fun pair : BitVec 64 × BitVec 64 =>
    (pair.1.toNat : Int) - pair.2.toNat) (left.digits.zip right.digits) 0
    (by rw [weight]; omega)
    (by rw [weight, length_zip, left.length_digits, right.length_digits]; norm_num; omega)
  rw [weight] at exact
  rw [subU256Le, Limbs.toNat_ofDigits]
  omega

theorem addOneLimbs_toNat (fits : number.toNat + 1 < 2 ^ 256) :
    (addOneLimbs number).toNat = number.toNat + 1 := by
  have sum := carry_exact (w := 64) (fun limb : BitVec 64 => (limb.toNat : Int)) number.digits 1
    (by rw [weight_toNat]; omega)
    (by rw [weight_toNat, number.length_digits]; rw [Limbs.toNat] at fits; norm_num at *; omega)
  rw [weight_toNat] at sum
  rw [addOneLimbs, Limbs.toNat_ofDigits]
  rw [Limbs.toNat] at fits ⊢
  omega

theorem setBit_toNat {i : Nat} (inside : i < 256) :
    (setBit number i).toNat = number.toNat ||| 2 ^ i := by
  apply Nat.eq_of_testBit_eq
  intro place
  rw [Nat.testBit_or, Nat.testBit_two_pow, Limbs.testBit_toNat, Limbs.testBit_toNat, setBit,
    Limbs.limb_ofFn]
  have width : 4 ≤ place / 64 → number.limb (place / 64) = 0 := fun beyond =>
    getD_eq_default _ _ (by rw [number.length_eq]; exact beyond)
  have under := Nat.mod_lt place (show 0 < 64 by decide)
  have same : i = place ↔ place / 64 = i / 64 ∧ place % 64 = i % 64 := by omega
  have bit : (1#64 <<< (i % 64)).getLsbD (place % 64) = decide (place % 64 = i % 64) := by
    rw [BitVec.getLsbD_shiftLeft, BitVec.getLsbD_one]
    grind
  grind

/-- The turns of the division that are left: subtract the shifted divisor where it goes, and set
the bit of the turn. -/
def divTurns : Nat → Limbs → Limbs → Limbs → Limbs
  | 0, _, quot, _ => quot
  | i + 1, rem, quot, shiftedDiv =>
    if gteU256Le rem shiftedDiv then
      divTurns i (subU256Le rem shiftedDiv) (setBit quot i) (shrU256Le shiftedDiv 1)
    else divTurns i rem quot (shrU256Le shiftedDiv 1)

/-- The highest limb that is not zero, or the lowest limb. -/
def topLimb (number : Limbs) : Nat → Nat
  | 0 => 0
  | i + 1 => if number.limb (i + 1) = 0 then topLimb number i else i + 1

def divU256Le (numerator divisor : Limbs) : Limbs :=
  if divisor.limb (topLimb divisor 3) = 0 then .ofFn fun _ => BitVec.allOnes 64
  else
    let numBits := 256 - leadingZerosU256Le numerator.digits
    let divBits := 256 - leadingZerosU256Le divisor.digits
    if numBits < divBits then .ofFn fun _ => 0
    else
      let shift := numBits - divBits
      divTurns (shift + 1) numerator (.ofFn fun _ => 0) (shlU256Le divisor shift)

/-- The turns add the quotient of the remainder. The shifted divisor is the divisor times the
weight of the next bit, and the remainder is below twice that. -/
theorem divTurns_toNat {divisor : Nat} {i : Nat} (room : i ≤ 256) {rem quot shiftedDiv : Limbs}
    (shifted : 0 < i → shiftedDiv.toNat = divisor * 2 ^ (i - 1)) (low : rem.toNat < divisor * 2 ^ i)
    (clear : 2 ^ i ∣ quot.toNat) :
    (divTurns i rem quot shiftedDiv).toNat = quot.toNat + rem.toNat / divisor := by
  induction i generalizing rem quot shiftedDiv with
  | zero => rw [divTurns, Nat.div_eq_of_lt (by simpa using low), add_zero]
  | succ i ih =>
    have here : shiftedDiv.toNat = divisor * 2 ^ i := shifted (Nat.succ_pos i)
    have next : 0 < i → (shrU256Le shiftedDiv 1).toNat = divisor * 2 ^ (i - 1) := by
      intro positive
      obtain ⟨i, rfl⟩ := Nat.exists_eq_succ_of_ne_zero positive.ne'
      rw [shrU256Le_toNat, here, Nat.pow_one, pow_succ, ← mul_assoc,
        Nat.mul_div_cancel _ two_pos, Nat.succ_sub_one]
    have double : divisor * 2 ^ (i + 1) = divisor * 2 ^ i + divisor * 2 ^ i := by ring
    obtain ⟨high, isHigh⟩ := clear
    rw [divTurns]
    split_ifs with fits
    all_goals rw [gteU256Le_iff, here] at fits
    · have set : (setBit quot i).toNat = quot.toNat + 2 ^ i := by
        rw [setBit_toNat room, isHigh, ← Nat.two_pow_add_eq_or_of_lt]
        exact Nat.pow_lt_pow_succ (by decide)
      have left : (subU256Le rem shiftedDiv).toNat = rem.toNat - divisor * 2 ^ i := by
        rw [subU256Le_toNat (by rwa [here]), here]
      rw [ih (by omega) next (by omega) ⟨2 * high + 1, by rw [set, isHigh]; ring⟩, set, left,
        Nat.sub_mul_div_of_le _ _ _ fits, add_assoc, Nat.add_sub_cancel']
      exact (Nat.le_div_iff_mul_le (by by_contra none; simp_all)).mpr (by rwa [mul_comm])
    · exact ih (by omega) next (by omega) ⟨2 * high, by rw [isHigh]; ring⟩

variable {divisor : Limbs}

/-- The highest limb that is not zero is zero only if all are. -/
theorem topLimb_ne_zero (nonzero : divisor.toNat ≠ 0) : divisor.limb (topLimb divisor 3) ≠ 0 := by
  intro zero
  apply nonzero
  have none : divisor.limb 3 = 0 ∧ divisor.limb 2 = 0 ∧ divisor.limb 1 = 0 ∧
      divisor.limb 0 = 0 := by
    simp only [topLimb] at zero
    split_ifs at zero <;> simp_all
  rw [divisor.toNat_eq, none.1, none.2.1, none.2.2.1, none.2.2.2]
  rfl

theorem divU256Le_toNat {numerator : Limbs} (nonzero : divisor.toNat ≠ 0) :
    (divU256Le numerator divisor).toNat = numerator.toNat / divisor.toNat := by
  have positive : 0 < divisor.toNat.size := Nat.size_pos.mpr (Nat.pos_of_ne_zero nonzero)
  have numBits : numerator.toNat < 2 ^ numerator.toNat.size := Nat.lt_size_self _
  have divBits : 2 ^ (divisor.toNat.size - 1) ≤ divisor.toNat := Nat.lt_size.mp (by omega)
  have width : numerator.toNat.size ≤ 256 := Nat.size_le.mpr numerator.toNat_lt
  rw [divU256Le, if_neg (topLimb_ne_zero nonzero)]
  simp only [size_toNat]
  split_ifs with fewer
  · rw [Nat.div_eq_of_lt]
    · rfl
    · exact (numBits.trans_le (Nat.pow_le_pow_right (by decide) (by omega))).trans_le divBits
  · obtain ⟨shift, isShift⟩ := Nat.exists_eq_add_of_le (not_lt.mp fewer)
    rw [isShift] at numBits width ⊢
    rw [Nat.add_sub_cancel_left]
    have shifted : (shlU256Le divisor shift).toNat = divisor.toNat * 2 ^ shift := by
      rw [shlU256Le_toNat, Nat.mod_eq_of_lt]
      calc divisor.toNat * 2 ^ shift < 2 ^ divisor.toNat.size * 2 ^ shift :=
            Nat.mul_lt_mul_of_pos_right (Nat.lt_size_self _) (Nat.two_pow_pos _)
        _ ≤ 2 ^ 256 := by
            rw [← pow_add]
            exact Nat.pow_le_pow_right (by decide) width
    have low : numerator.toNat < divisor.toNat * 2 ^ (shift + 1) :=
      calc numerator.toNat < 2 ^ (divisor.toNat.size + shift) := numBits
        _ = 2 ^ (divisor.toNat.size - 1) * 2 ^ (shift + 1) := by
            rw [← pow_add]
            congr 1
            omega
        _ ≤ _ := Nat.mul_le_mul_right _ divBits
    rw [divTurns_toNat (by omega) (fun _ => shifted) low ⟨0, rfl⟩]
    exact Nat.zero_add _

end Division

/-! ## Work -/

/-- One more than the quotient of the complement. -/
def div2256By (divisor : U256) : U256 :=
  let neg : U256 := ⟨divisor.bytes.map fun byte => ~~~byte, (length_map _).trans divisor.length_eq⟩
  bytesOf (addOneLimbs (divU256Le (limbsOf neg) (limbsOf divisor)))

def workForBits (bits : UInt32) : U256 :=
  match targetWithWork bits with
  | none => .zero
  | some target =>
    let targetPlusOne := addOneU256 target
    if targetPlusOne = .zero then ⟨replicate 31 0 ++ [1], rfl⟩ else div2256By targetPlusOne

variable {bits : UInt32} {divisor : U256}

/-- The number that compact bits stand for, of any size. -/
def compactNumber (bits : UInt32) : Nat :=
  if exponent bits ≤ 3 then mantissa bits / 256 ^ (3 - exponent bits)
  else mantissa bits * 256 ^ (exponent bits - 3)

/-- The number is negative, does not fit into 256 bits, or is zero. -/
def Workless (bits : UInt32) : Prop :=
  compactNumber bits ≠ 0 ∧ bits.toNat / 2 ^ 23 % 2 = 1 ∨ 2 ^ 256 ≤ compactNumber bits ∨
    compactNumber bits = 0

/-- The limits on the mantissa say that the number fits. -/
theorem overflow_iff {mantissa exponent : Nat} (small : mantissa < 2 ^ 23) (nonzero : mantissa ≠ 0)
    (large : 3 < exponent) : 34 < exponent ∨ 0xff < mantissa ∧ 33 < exponent ∨
      0xffff < mantissa ∧ 32 < exponent ↔ 2 ^ 256 ≤ mantissa * 256 ^ (exponent - 3) := by
  rcases lt_or_ge 34 exponent with high | low
  · refine iff_of_true (.inl high) ?_
    calc 2 ^ 256 = 1 * 256 ^ 32 := by norm_num
      _ ≤ _ := Nat.mul_le_mul (by omega) (Nat.pow_le_pow_right (by decide) (by omega))
  · interval_cases exponent <;> omega

open Classical in
theorem targetWithWork_eq_number :
    Chain.targetWithWork bits = if Workless bits then none else some (compactNumber bits) := by
  have small := mantissa_lt bits
  rw [Chain.targetWithWork, ← mantissa, ← exponent, Workless]
  by_cases short : exponent bits ≤ 3
  · have number : compactNumber bits = mantissa bits / 256 ^ (3 - exponent bits) := if_pos short
    have below := (number.trans_le (Nat.div_le_self _ _)).trans_lt small
    simp only [if_pos short, ← number]
    split_ifs <;> first | rfl | omega
  · have number : compactNumber bits = mantissa bits * 256 ^ (exponent bits - 3) := if_neg short
    have none : compactNumber bits = 0 ↔ mantissa bits = 0 := by simp [number]
    simp only [if_neg short, ← number]
    by_cases zero : mantissa bits = 0
    · simp [none.mpr zero]
    · have overflow := overflow_iff small zero (not_le.mp short)
      rw [← number] at overflow
      by_cases fits : compactNumber bits < 2 ^ 256
      · rw [Nat.mod_eq_of_lt fits]
        split_ifs <;> first | rfl | omega
      · split_ifs <;> first | rfl | omega

/-- A number that is neither negative nor too large is not the largest one. -/
theorem compactNumber_lt (some : ¬ Workless bits) : compactNumber bits + 1 < 2 ^ 256 := by
  have fits : compactNumber bits < 2 ^ 256 := by
    by_contra tooLarge
    exact some (.inr (.inl (not_lt.mp tooLarge)))
  by_cases short : exponent bits ≤ 3
  · have number : compactNumber bits = mantissa bits / 256 ^ (3 - exponent bits) := if_pos short
    have := (number.trans_le (Nat.div_le_self _ _)).trans_lt (mantissa_lt bits)
    omega
  · obtain ⟨k, isNext⟩ := Nat.exists_eq_add_of_lt (not_le.mp short)
    have number : compactNumber bits = mantissa bits * 256 ^ (exponent bits - 3) := if_neg short
    rw [isNext, show 3 + k + 1 - 3 = k + 1 by omega, pow_succ, ← mul_assoc] at number
    omega

theorem div2256By_toNat (nonzero : divisor.toNat ≠ 0) :
    (div2256By divisor).toNat = (2 ^ 256 - 1) / divisor.toNat := by
  have positive : 0 < divisor.toNat := Nat.pos_of_ne_zero nonzero
  have next : (2 ^ 256 - 1 - divisor.toNat) / divisor.toNat + 1 =
      (2 ^ 256 - 1) / divisor.toNat := by
    rw [← Nat.add_div_right _ positive, Nat.sub_add_cancel (by have := divisor.toNat_lt; omega)]
  have fits : (2 ^ 256 - 1) / divisor.toNat < 2 ^ 256 := (Nat.div_le_self _ _).trans_lt (by decide)
  have complement := value_map_not divisor.bytes
  rw [divisor.length_eq] at complement
  have quotient : (divU256Le (limbsOf ⟨divisor.bytes.map fun byte => ~~~byte,
      (length_map _).trans divisor.length_eq⟩) (limbsOf divisor)).toNat + 1 =
        (2 ^ 256 - 1) / divisor.toNat := by
    rw [divU256Le_toNat (by rwa [limbsOf_toNat]), limbsOf_toNat, limbsOf_toNat, ← next]
    exact congrArg (· / divisor.toNat + 1) complement
  rw [div2256By, bytesOf_toNat, addOneLimbs_toNat (quotient ▸ fits), quotient]

/-- The work is the quotient of the largest number. -/
theorem workForBits_toNat (bits : UInt32) [Decidable (Workless bits)] : (workForBits bits).toNat =
    if Workless bits then 0 else (2 ^ 256 - 1) / (compactNumber bits + 1) := by
  have decoded := (targetWithWork_toNat bits).trans (targetWithWork_eq_number)
  rw [workForBits]
  split_ifs with workless
  · rw [if_pos workless, Option.map_eq_none_iff] at decoded
    rw [decoded, U256.toNat_zero]
  · rw [if_neg workless, Option.map_eq_some_iff] at decoded
    obtain ⟨target, isTarget, same⟩ := decoded
    have below := compactNumber_lt workless
    have next : (addOneU256 target).toNat = compactNumber bits + 1 := by
      rw [addOneU256_toNat, same, Nat.mod_eq_of_lt below]
    have nonzero : (addOneU256 target).toNat ≠ 0 := by omega
    rw [isTarget]
    dsimp only
    rw [if_neg (mt U256.eq_zero_iff.mp nonzero), div2256By_toNat nonzero, next]

/-- The work as the chain's rules compute it, in one step. -/
theorem workForBits_eq (bits : UInt32) : (workForBits bits).toNat = Chain.workForBits bits := by
  classical
  rw [workForBits_toNat, Chain.workForBits, targetWithWork_eq_number]
  split_ifs with workless
  · rfl
  · have below := compactNumber_lt workless
    dsimp only
    rw [if_neg below.ne, ← Nat.add_div_right _ (Nat.succ_pos _), Nat.sub_add_cancel (by omega)]

/-- Bits that are negative, too large or zero have no work. Others have the work they ask for
exactly if the number of hashes does not divide 2 ^ 256, and no work lowers a chain's. -/
theorem work_exact_iff (bits : UInt32) :
    (Workless bits → workForBits bits = .zero) ∧
    (¬ Workless bits → ((workForBits bits).toNat = 2 ^ 256 / (compactNumber bits + 1) ↔
      ¬ compactNumber bits + 1 ∣ 2 ^ 256)) ∧
    ∀ parent : U256, parent.toNat ≤ (addU256 parent (workForBits bits)).toNat := by
  classical
  refine ⟨fun workless => U256.eq_zero_iff.mpr ?_, fun some => ?_, fun parent => ?_⟩
  · rw [workForBits_toNat, if_pos workless]
  · have step := @Nat.succ_div (2 ^ 256 - 1) (compactNumber bits + 1)
    rw [Nat.sub_add_cancel (by decide)] at step
    rw [workForBits_toNat, if_neg some, step]
    split_ifs with divides
    · exact iff_of_false (Nat.succ_ne_self _).symm (not_not.mpr divides)
    · exact iff_of_true rfl divides
  · have below := parent.toNat_lt
    rw [addU256_toNat, Chain.addU256]
    omega

/-- The bits of target one ask for half of all hashes, one more than their work. -/
theorem work_of_target_one : ¬ Workless 0x01010000 ∧ compactNumber 0x01010000 = 1 ∧
    (workForBits 0x01010000).toNat = 2 ^ 255 - 1 ∧ 2 ^ 256 / (1 + 1) = 2 ^ 255 := by
  have number : compactNumber 0x01010000 = 1 := by decide
  have some : ¬ Workless 0x01010000 := by
    rw [Workless, number]
    decide
  classical
  refine ⟨some, number, ?_, by decide⟩
  rw [workForBits_toNat, if_neg some, number]
  decide

end Satd.Storage.BlockIndex
