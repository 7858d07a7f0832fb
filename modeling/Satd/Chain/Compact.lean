import Satd.Chain.Rules
import Satd.Lib.Positional

/-!
# Compact targets

A target is 32 bytes, the most significant one first, and a header encodes it in 32 bits: an
exponent of eight bits, a sign bit, and a mantissa of 23 bits that takes the place of the first
three of as many bytes as the exponent says. One decoder places the bytes of the mantissa from
the most significant end, the other, which is used for the work of a block, from the least
significant one. The encoder keeps three bytes, or two if the sign bit would be set.
-/

namespace Satd.Storage

open Positional List

/-- A 256-bit number as its bytes, the most significant one first. -/
structure U256 where
  bytes : List (BitVec 8)
  length_eq : bytes.length = 32
  deriving DecidableEq

namespace U256

variable (number : U256)

/-- The number the bytes stand for. -/
def toNat : Nat := value number.bytes

theorem toNat_lt : number.toNat < 2 ^ 256 := by
  have below := value_lt number.bytes
  rwa [number.length_eq] at below

def zero : U256 := ⟨List.replicate 32 0, rfl⟩

@[simp] theorem toNat_zero : zero.toNat = 0 := value_replicate_zero

theorem toNat_injective {left right : U256} (equal : left.toNat = right.toNat) : left = right := by
  obtain ⟨bytes, length⟩ := left
  obtain ⟨others, otherLength⟩ := right
  have same : bytes = others := value_injective (length.trans otherLength.symm) equal
  subst same
  rfl

variable {number : U256} {position : Nat}

/-- The bytes are all zero exactly if the number is. -/
theorem eq_zero_iff : number = zero ↔ number.toNat = 0 :=
  ⟨fun same => same ▸ toNat_zero, fun none => toNat_injective (none.trans toNat_zero.symm)⟩

/-- Write a byte. A place beyond the last byte is left out. -/
def put (position : Nat) (byte : Nat) : U256 :=
  ⟨number.bytes.set position (BitVec.ofNat 8 byte), (List.length_set ..).trans number.length_eq⟩

/-- The places from the given one on are zero. -/
def ZeroFrom (position : Nat) (number : U256) : Prop :=
  ∀ other, position ≤ other → number.bytes.getD other 0 = 0

theorem zeroFrom_zero (position : Nat) : ZeroFrom position zero := by
  intro other _
  simp only [zero, getD_eq_getElem?_getD, getElem?_replicate]
  split_ifs <;> rfl

theorem ZeroFrom.put (zeros : ZeroFrom position number) (byte : Nat) :
    ZeroFrom (position + 1) (number.put position byte) := by
  intro other later
  have different : position ≠ other := by omega
  have here := zeros other (by omega)
  rw [getD_eq_getElem?_getD] at here ⊢
  rwa [U256.put, getElem?_set_ne different]

/-- A byte written where zeros begin counts with the weight of its place. -/
theorem toNat_put (zeros : ZeroFrom position number) (inside : position < 32) {byte : Nat}
    (small : byte < 256) :
    (number.put position byte).toNat = number.toNat + byte * 256 ^ (31 - position) := by
  rw [toNat, put, value_set (number.length_eq ▸ inside) (zeros position le_rfl), number.length_eq,
    BitVec.toNat_ofNat, Nat.mod_eq_of_lt small, Nat.pow_mul]
  rfl

theorem put_beyond (beyond : 32 ≤ position) (number : U256) (byte : Nat) :
    number.put position byte = number := by
  obtain ⟨bytes, length⟩ := number
  simp [put, set_eq_of_length_le (length ▸ beyond)]

end U256

variable (bits : UInt32)

namespace BlockIndex

def exponent : Nat := bits.toNat / 2 ^ 24

def mantissa : Nat := bits.toNat % 2 ^ 23

/-- The target that compact bits encode. -/
def targetFromCompact : U256 :=
  if exponent bits = 0 then .zero
  else
    let byteOffset := 32 - exponent bits
    ((U256.zero.put byteOffset (mantissa bits / 2 ^ 16 % 256)).put (byteOffset + 1)
      (mantissa bits / 2 ^ 8 % 256)).put (byteOffset + 2) (mantissa bits % 256)

/-- The bytes of a word from the given one on are written, the one numbered i that many places
above the last one as the size says, if there is such a place. -/
def placeWord (size : Nat) : List Nat → Nat → U256 → U256
  | [], _, target => target
  | byte :: rest, i, target =>
    placeWord size rest (i + 1) (if size ≤ 31 + i then target.put (31 + i - size) byte else target)

/-- The target that the work of a block is counted for, if any is. -/
def targetWithWork : Option U256 :=
  let size := exponent bits
  let word := if size ≤ 3 then mantissa bits / 256 ^ (3 - size) else mantissa bits
  let bytes := [word / 2 ^ 24, word / 2 ^ 16 % 256, word / 2 ^ 8 % 256, word % 256]
  let target := placeWord (max size 3) bytes 0 .zero
  let negative := word ≠ 0 ∧ bits.toNat / 2 ^ 23 % 2 = 1
  let overflow := word ≠ 0 ∧ (34 < size ∨ (0xff < word ∧ 33 < size) ∨ (0xffff < word ∧ 32 < size))
  if ¬negative ∧ ¬overflow ∧ target ≠ .zero then some target else none

/-- The compact bits of the bytes, leading zeros left out. -/
def compactFromBytes : List (BitVec 8) → Nat
  | [] => 0
  | first :: rest =>
    if first = 0 then compactFromBytes rest
    else
      let exponent := rest.length + 1
      let mantissa := first.toNat * 2 ^ 16 + (rest.getD 0 0).toNat * 2 ^ 8 + (rest.getD 1 0).toNat
      if mantissa / 2 ^ 23 % 2 = 1 then (exponent + 1) * 2 ^ 24 + mantissa / 2 ^ 8
      else exponent * 2 ^ 24 + mantissa

def compactFromTarget (target : U256) : UInt32 := UInt32.ofNat (compactFromBytes target.bytes)

/-! ## The numbers -/

theorem mantissa_lt : mantissa bits < 2 ^ 23 := Nat.mod_lt _ (by decide)

/-- The three bytes of a mantissa. -/
theorem mantissa_bytes {mantissa : Nat} (small : mantissa < 2 ^ 24) :
    mantissa / 2 ^ 16 % 256 * 256 ^ 2 + mantissa / 2 ^ 8 % 256 * 256 + mantissa % 256 =
      mantissa := by
  omega

/-- The mantissa counts from the place the exponent says, and what is beyond the last place falls
off. An exponent above 32 is taken for 32. -/
theorem targetFromCompact_toNat : (targetFromCompact bits).toNat =
    mantissa bits * 256 ^ min (exponent bits) 32 / 256 ^ 3 := by
  have small := mantissa_lt bits
  have bytes := mantissa_bytes (small.trans (by decide))
  rw [targetFromCompact]
  generalize mantissa bits = m at *
  split_ifs with none
  · rw [none, U256.toNat_zero, zero_min, pow_zero]
    omega
  · -- The first byte always has a place, the others only if the exponent is large enough.
    obtain ⟨k, isMin⟩ : ∃ k, min (exponent bits) 32 = k + 1 :=
      Nat.exists_eq_succ_of_ne_zero (by omega)
    have offset : 32 - exponent bits = 31 - k := by omega
    have zeros := U256.zeroFrom_zero (31 - k)
    have byteSmall : ∀ n : Nat, n % 256 < 256 := fun n => Nat.mod_lt n (by decide)
    have first := U256.toNat_put zeros (by omega) (byteSmall (m / 2 ^ 16))
    have weight : 31 - (31 - k) = k := by omega
    rw [U256.toNat_zero, weight, zero_add] at first
    have two : m * 256 ^ (1 + 1) / 256 ^ 3 = m / 2 ^ 16 % 256 * 256 + m / 2 ^ 8 % 256 := by
      omega
    rw [isMin, offset]
    rcases k with _ | _ | k
    · rw [U256.put_beyond (by omega), U256.put_beyond (by omega), first]
      omega
    · have second : 31 - (31 - 1 + 1) = 0 := rfl
      rw [U256.put_beyond (by omega), U256.toNat_put (zeros.put _) (by omega) (byteSmall _), first,
        second, pow_zero, pow_one, two]
      ring
    · have second : 31 - (31 - (k + 2) + 1) = k + 1 := by omega
      have third : 31 - (31 - (k + 2) + 2) = k := by omega
      have both := U256.toNat_put (zeros.put (m / 2 ^ 16 % 256)) (by omega) (byteSmall (m / 2 ^ 8))
      have all := U256.toNat_put ((zeros.put (m / 2 ^ 16 % 256)).put (m / 2 ^ 8 % 256)) (by omega)
        (byteSmall m)
      rw [all, both, first, second, third]
      calc m / 2 ^ 16 % 256 * 256 ^ (k + 2) + m / 2 ^ 8 % 256 * 256 ^ (k + 1) + m % 256 * 256 ^ k
          = (m / 2 ^ 16 % 256 * 256 ^ 2 + m / 2 ^ 8 % 256 * 256 + m % 256) * 256 ^ k := by ring
        _ = m * 256 ^ (k + 2 + 1) / 256 ^ 3 := by
            rw [bytes, add_assoc, pow_add _ k 3, ← mul_assoc,
              Nat.mul_div_cancel _ (by decide)]

/-- The number bytes stand for, the most significant one first. -/
def natOfBytes : List Nat → Nat
  | [] => 0
  | byte :: rest => byte * 256 ^ rest.length + natOfBytes rest

/-- The bytes that have a place are those of the word shifted up, as far as they are below 256
bits. -/
theorem placeWord_toNat (size : Nat) {bytes : List Nat} (small : ∀ byte ∈ bytes, byte < 256)
    {i : Nat} (room : i + bytes.length ≤ size + 1) {target : U256}
    (zeros : U256.ZeroFrom (31 + i - size) target) :
    (placeWord size bytes i target).toNat =
      (target.toNat + natOfBytes bytes * 256 ^ (size + 1 - i - bytes.length)) % 2 ^ 256 := by
  induction bytes generalizing i target with
  | nil => rw [placeWord, natOfBytes, zero_mul, add_zero, Nat.mod_eq_of_lt target.toNat_lt]
  | cons byte rest ih =>
    obtain ⟨byteSmall, restSmall⟩ := forall_mem_cons.mp small
    have room : i + (rest.length + 1) ≤ size + 1 := room
    have exponent : size + 1 - i - (rest.length + 1) = size + 1 - (i + 1) - rest.length := by omega
    -- The byte itself counts with the weight of its place.
    have weight : 256 ^ rest.length * 256 ^ (size + 1 - (i + 1) - rest.length) =
      256 ^ (size - i) := by
      rw [← pow_add]
      congr 1
      omega
    have split : natOfBytes (byte :: rest) * 256 ^ (size + 1 - i - (rest.length + 1)) =
        byte * 256 ^ (size - i) + natOfBytes rest * 256 ^ (size + 1 - (i + 1) - rest.length) := by
      rw [exponent, natOfBytes, add_mul, mul_assoc, weight]
    rw [placeWord, length_cons, split]
    split_ifs with placed
    · have next : 31 + (i + 1) - size = 31 + i - size + 1 := by omega
      have place : 31 - (31 + i - size) = size - i := by omega
      rw [ih restSmall (by omega) (next ▸ zeros.put byte),
        U256.toNat_put zeros (by omega) byteSmall, place, add_assoc]
    · have first : 31 + (i + 1) - size = 31 + i - size := by omega
      obtain ⟨more, isMore⟩ : ∃ more, size - i = 32 + more := Nat.exists_eq_add_of_le (by omega)
      have beyond : byte * 256 ^ (size - i) = byte * 256 ^ more * 2 ^ 256 := by
        rw [isMore, pow_add]
        ring
      rw [ih restSmall (by omega) (first ▸ zeros), beyond, add_left_comm,
        Nat.mul_add_mod_self_right]

/-- The bytes of the target that work is counted for are those of the number. -/
theorem targetWithWork_toNat :
    (targetWithWork bits).map U256.toNat = Chain.targetWithWork bits := by
  have mantissaSmall := mantissa_lt bits
  rw [targetWithWork, Chain.targetWithWork, ← mantissa, ← exponent]
  set word := if exponent bits ≤ 3 then mantissa bits / 256 ^ (3 - exponent bits) else mantissa bits
    with isWord
  have small : word < 2 ^ 23 := by
    rw [isWord]
    split_ifs
    · exact (Nat.div_le_self _ _).trans_lt mantissaSmall
    · exact mantissaSmall
  set bytes := [word / 2 ^ 24, word / 2 ^ 16 % 256, word / 2 ^ 8 % 256, word % 256] with isBytes
  have bytesSmall : ∀ byte ∈ bytes, byte < 256 := by
    intro byte member
    simp only [isBytes, mem_cons, not_mem_nil, or_false] at member
    omega
  have joined : natOfBytes bytes = word := by
    simp only [isBytes, natOfBytes, length_cons, length_nil]
    omega
  have placed := placeWord_toNat (max (exponent bits) 3) bytesSmall (i := 0)
    (show 0 + 4 ≤ _ by omega) (U256.zeroFrom_zero _)
  have shift : max (exponent bits) 3 + 1 - 0 - bytes.length = exponent bits - 3 := by
    change max (exponent bits) 3 + 1 - 0 - 4 = exponent bits - 3
    omega
  rw [joined, shift, U256.toNat_zero, zero_add] at placed
  have sameTarget : (placeWord (max (exponent bits) 3) bytes 0 .zero).toNat =
      if exponent bits ≤ 3 then word else word * 256 ^ (exponent bits - 3) % 2 ^ 256 := by
    rw [placed]
    split_ifs with low
    · rw [Nat.sub_eq_zero_of_le low, pow_zero, mul_one, Nat.mod_eq_of_lt]
      exact small.trans (by decide)
    · rfl
  rw [← sameTarget]
  simp only [ne_eq, U256.eq_zero_iff]
  split_ifs <;> rfl

/-! ## The encoder -/

/-- The bytes of a number with room for a sign bit. -/
def span (target : Nat) : Nat := target.size / 8 + 1

/-- The compact form of a number: its span, and the three bytes that begin there. -/
def compactOf (target : Nat) : Nat :=
  if target = 0 then 0 else span target * 2 ^ 24 + target * 256 ^ 3 / 256 ^ span target

theorem lt_of_span {target : Nat} : target < 2 ^ (8 * span target - 1) := by
  rw [← Nat.size_le, span]
  omega

/-- The mantissa leaves the sign bit clear. -/
theorem compact_mantissa_lt (target : Nat) : target * 256 ^ 3 / 256 ^ span target < 2 ^ 23 := by
  apply Nat.div_lt_of_lt_mul
  calc target * 256 ^ 3 < 2 ^ (8 * span target - 1) * 256 ^ 3 :=
        Nat.mul_lt_mul_of_pos_right (lt_of_span) (by decide)
    _ = 2 ^ (8 * span target - 1) * 2 ^ 24 := rfl
    _ = 2 ^ (8 * span target) * 2 ^ 23 := by
        rw [← pow_add, ← pow_add]
        congr 1
    _ = 256 ^ span target * 2 ^ 23 := by rw [Nat.pow_mul]

/-- The first three bytes. -/
theorem leading_bytes (first : BitVec 8) (rest : List (BitVec 8)) :
    first.toNat * 2 ^ 16 + (rest.getD 0 0).toNat * 2 ^ 8 + (rest.getD 1 0).toNat =
      value (first :: rest) * 256 ^ 3 / 256 ^ (rest.length + 1) := by
  match rest with
  | [] =>
    simp only [value_cons, length_nil, getD_nil, BitVec.toNat_zero, value_nil,
      BitVec.ofNat_eq_ofNat]
    omega
  | [second] =>
    simp only [value_cons, length_nil, length_cons, getD_cons_zero,
      getD_cons_succ, getD_nil, BitVec.toNat_zero, value_nil, BitVec.ofNat_eq_ofNat]
    omega
  | second :: third :: more =>
    have below : value more < 256 ^ more.length := by
      have below := value_lt more
      rwa [Nat.pow_mul] at below
    have split : value (first :: second :: third :: more) = (first.toNat * 2 ^ 16 +
        second.toNat * 2 ^ 8 + third.toNat) * 256 ^ more.length + value more := by
      simp only [value_cons, length_cons, mul_add, pow_add, Nat.pow_mul]
      ring
    have scale : 256 ^ ((second :: third :: more).length + 1) = 256 ^ more.length * 256 ^ 3 := by
      rw [← pow_add]
      rfl
    rw [scale, Nat.mul_div_mul_right _ _ (by decide), split, mul_comm _ (256 ^ more.length),
      Nat.mul_add_div (by positivity), Nat.div_eq_of_lt below, add_zero]
    rfl

theorem compactFromBytes_eq (bytes : List (BitVec 8)) :
    compactFromBytes bytes = compactOf (value bytes) := by
  induction bytes with
  | nil => rfl
  | cons first rest ih =>
    rw [compactFromBytes]
    split_ifs with zero
    · rw [ih, zero, value_cons]
      simp
    · have size := size_value_cons zero rest
      have mantissa := leading_bytes first rest
      have firstBelow : first.toNat < 256 := first.isLt
      have nonzero : value (first :: rest) ≠ 0 := by
        intro none
        have all := eq_replicate_of_value_eq_zero none
        exact zero (cons.inj all).1
      dsimp only
      rw [mantissa, compactOf, if_neg nonzero, span, size]
      -- The sign bit would be set exactly if the first byte has all its bits.
      have upper : first.toNat.size ≤ 8 := Nat.size_le.mpr firstBelow
      have full : 128 ≤ first.toNat ↔ first.toNat.size = 8 := by
        have lower : 7 < first.toNat.size ↔ 2 ^ 7 ≤ first.toNat := Nat.lt_size
        omega
      have sign : value (first :: rest) * 256 ^ 3 / 256 ^ (rest.length + 1) / 2 ^ 23 % 2 = 1 ↔
          128 ≤ first.toNat := by
        omega
      split_ifs with eight
      · rw [sign, full] at eight
        have more : (first.toNat.size + 8 * rest.length) / 8 + 1 = rest.length + 1 + 1 := by omega
        rw [more, Nat.div_div_eq_div_mul, pow_succ 256 (rest.length + 1)]
        rfl
      · rw [sign, full] at eight
        have same : (first.toNat.size + 8 * rest.length) / 8 + 1 = rest.length + 1 := by omega
        rw [same]

/-! ## Encodings -/

/-- The sign bit is clear. -/
def Plain : Prop := bits.toNat / 2 ^ 23 % 2 = 0

instance (bits : UInt32) : Decidable (Plain bits) := inferInstanceAs (Decidable (_ = _))

/-- The sign bit is clear, no part of the mantissa falls off, and no encoding of the same target
has a lower exponent. -/
structure Canonical (bits : UInt32) : Prop where
  plain : Plain bits
  whole : mantissa bits % 256 ^ (3 - exponent bits) = 0
  least : ∀ other, Plain other → targetFromCompact other = targetFromCompact bits →
    exponent bits ≤ exponent other

theorem Plain.toNat_eq {bits : UInt32} (plain : Plain bits) :
    bits.toNat = exponent bits * 2 ^ 24 + mantissa bits := by
  rw [Plain] at plain
  rw [exponent, mantissa]
  omega

section Encoded

variable (target : U256)

variable {bytes : Nat}

theorem span_le {number : Nat} (positive : 0 < bytes) (below : number < 2 ^ (8 * bytes - 1)) :
    span number ≤ bytes := by
  have size : number.size ≤ 8 * bytes - 1 := Nat.size_le.mpr below
  rw [span]
  omega

theorem compactFromTarget_toNat : (compactFromTarget target).toNat = compactOf target.toNat := by
  have spans : span target.toNat ≤ 33 := by
    have size : target.toNat.size ≤ 256 := Nat.size_le.mpr target.toNat_lt
    rw [span]
    omega
  have fits : compactOf target.toNat < 2 ^ 32 := by
    have small := compact_mantissa_lt target.toNat
    rw [compactOf]
    split_ifs
    · decide
    · exact (Nat.add_lt_add_of_le_of_lt (Nat.mul_le_mul_right _ spans) small).trans (by decide)
  rw [compactFromTarget, compactFromBytes_eq, UInt32.toNat_ofNat']
  exact Nat.mod_eq_of_lt fits

/-- The parts of an encoding. -/
theorem parts {kept : Nat} (small : kept < 2 ^ 23) :
    (bytes * 2 ^ 24 + kept) / 2 ^ 24 = bytes ∧ (bytes * 2 ^ 24 + kept) % 2 ^ 23 = kept ∧
      (bytes * 2 ^ 24 + kept) / 2 ^ 23 % 2 = 0 := by
  omega

theorem compactFromTarget_parts (nonzero : target.toNat ≠ 0) :
    exponent (compactFromTarget target) = span target.toNat ∧
      mantissa (compactFromTarget target) = target.toNat * 256 ^ 3 / 256 ^ span target.toNat ∧
      Plain (compactFromTarget target) := by
  rw [exponent, mantissa, Plain, compactFromTarget_toNat, compactOf, if_neg nonzero]
  exact parts (compact_mantissa_lt target.toNat)

theorem compactFromTarget_plain : Plain (compactFromTarget target) := by
  by_cases zero : target.toNat = 0
  · rw [Plain, compactFromTarget_toNat, compactOf, if_pos zero]
    decide
  · exact (compactFromTarget_parts target zero).2.2

/-- Encoding a target rounds it down to a multiple of the last byte that is kept. -/
theorem decoded_toNat (below : target.toNat < 2 ^ 255) :
    (targetFromCompact (compactFromTarget target)).toNat =
      target.toNat / 256 ^ (span target.toNat - 3) * 256 ^ (span target.toNat - 3) := by
  rw [targetFromCompact_toNat]
  by_cases zero : target.toNat = 0
  · have bits : (compactFromTarget target).toNat = 0 := by
      rw [compactFromTarget_toNat, zero, compactOf, if_pos rfl]
    rw [mantissa, bits, zero]
    simp
  · obtain ⟨isExponent, isMantissa, -⟩ := compactFromTarget_parts target zero
    have spans : span target.toNat ≤ 32 := span_le (by decide) below
    rw [isExponent, isMantissa, min_eq_left spans]
    obtain large | lower := le_total 3 (span target.toNat)
    · obtain ⟨more, isMore⟩ := Nat.exists_eq_add_of_le' large
      rw [isMore, Nat.add_sub_cancel, pow_add, Nat.mul_div_mul_right _ _ (by decide),
        ← mul_assoc, Nat.mul_div_cancel _ (by decide)]
    · -- A short number is kept whole.
      obtain ⟨fewer, isFewer⟩ := Nat.exists_eq_add_of_le lower
      rw [Nat.sub_eq_zero_of_le lower, pow_zero, Nat.div_one, mul_one, isFewer, pow_add,
        Nat.mul_left_comm, Nat.mul_div_cancel_left _ (by positivity), mul_assoc,
        mul_comm (256 ^ fewer), Nat.mul_div_cancel _ (by positivity)]

end Encoded

/-- What bits encode is a number of 23 bits followed by zero bytes. -/
theorem targetFromCompact_shape : ∃ leading zeros, leading < 2 ^ 23 ∧
    (targetFromCompact bits).toNat = leading * 256 ^ zeros := by
  have small := mantissa_lt bits
  rw [targetFromCompact_toNat]
  obtain large | lower := le_total 3 (min (exponent bits) 32)
  · obtain ⟨more, isMore⟩ := Nat.exists_eq_add_of_le' large
    refine ⟨mantissa bits, more, small, ?_⟩
    rw [isMore, pow_add, ← mul_assoc, Nat.mul_div_cancel _ (by decide)]
  · refine ⟨mantissa bits * 256 ^ min (exponent bits) 32 / 256 ^ 3, 0, ?_, (mul_one _).symm⟩
    apply Nat.div_lt_of_lt_mul
    calc mantissa bits * 256 ^ min (exponent bits) 32 ≤ mantissa bits * 256 ^ 3 :=
          Nat.mul_le_mul_left _ (Nat.pow_le_pow_right (by decide) lower)
      _ < 256 ^ 3 * 2 ^ 23 := by omega

theorem targetFromCompact_lt : (targetFromCompact bits).toNat < 2 ^ 255 := by
  have small := mantissa_lt bits
  rw [targetFromCompact_toNat]
  apply Nat.div_lt_of_lt_mul
  calc mantissa bits * 256 ^ min (exponent bits) 32 ≤ mantissa bits * 256 ^ 32 :=
        Nat.mul_le_mul_left _ (Nat.pow_le_pow_right (by decide) (Nat.min_le_right _ _))
    _ < 256 ^ 3 * 2 ^ 255 := by omega

/-- No target that bits encode lies between a target and what encoding it rounds it down to. -/
theorem le_decoded {target : U256} (below : target.toNat < 2 ^ 255) {bits : UInt32}
    (le : (targetFromCompact bits).toNat ≤ target.toNat) :
    (targetFromCompact bits).toNat ≤ (targetFromCompact (compactFromTarget target)).toNat := by
  obtain ⟨leading, zeros, small, isEncoded⟩ := targetFromCompact_shape bits
  rw [decoded_toNat target below]
  rw [isEncoded] at le ⊢
  set kept := span target.toNat - 3 with isKept
  obtain more | fewer := le_or_gt kept zeros
  · -- The encoded number is a multiple of the last byte that is kept.
    obtain ⟨extra, rfl⟩ := Nat.exists_eq_add_of_le' more
    rw [pow_add, ← mul_assoc] at le ⊢
    exact Nat.mul_le_mul_right _ ((Nat.le_div_iff_mul_le (by positivity)).mpr le)
  · -- The encoded number is below the highest bit.
    have size : 8 * (kept + 2) ≤ target.toNat.size := by
      rw [span] at isKept
      omega
    have high : 2 ^ (8 * (kept + 2) - 1) ≤ target.toNat := Nat.lt_size.mp (by omega)
    have split : 2 ^ (8 * (kept + 2) - 1) = 2 ^ 15 * 256 ^ kept := by
      have exponent : 8 * (kept + 2) - 1 = 15 + 8 * kept := by omega
      rw [exponent, pow_add, Nat.pow_mul]
    calc leading * 256 ^ zeros ≤ 2 ^ 23 * 256 ^ zeros := Nat.mul_le_mul_right _ small.le
      _ ≤ 2 ^ 15 * 256 ^ kept := by
          have next : 256 ^ (zeros + 1) ≤ 256 ^ kept := Nat.pow_le_pow_right (by decide) fewer
          omega
      _ ≤ target.toNat / 256 ^ kept * 256 ^ kept := by
          apply Nat.mul_le_mul_right
          rw [Nat.le_div_iff_mul_le (by positivity), ← split]
          exact high

/-- A target that bits encode is encoded without rounding. -/
theorem decoded_decoded :
    targetFromCompact (compactFromTarget (targetFromCompact bits)) = targetFromCompact bits := by
  have below := targetFromCompact_lt bits
  apply U256.toNat_injective
  apply le_antisymm
  · rw [decoded_toNat _ below]
    exact Nat.div_mul_le_self _ _
  · exact le_decoded below le_rfl

/-- The span of a target is at most the exponent of its encodings. -/
theorem span_le_exponent {bits : UInt32} (nonzero : (targetFromCompact bits).toNat ≠ 0) :
    span (targetFromCompact bits).toNat ≤ exponent bits := by
  have small := mantissa_lt bits
  rw [targetFromCompact_toNat] at nonzero ⊢
  have positive : 0 < min (exponent bits) 32 := by
    rw [Nat.pos_iff_ne_zero]
    intro none
    rw [none] at nonzero
    omega
  refine (span_le positive ?_).trans (min_le_left _ _)
  apply Nat.div_lt_of_lt_mul
  calc mantissa bits * 256 ^ min (exponent bits) 32 < 2 ^ 23 * 256 ^ min (exponent bits) 32 :=
        Nat.mul_lt_mul_of_pos_right small (by positivity)
    _ = 2 ^ (23 + 8 * min (exponent bits) 32) := by rw [pow_add, Nat.pow_mul]
    _ = 2 ^ (24 + (8 * min (exponent bits) 32 - 1)) := by
        congr 1
        omega
    _ = 256 ^ 3 * 2 ^ (8 * min (exponent bits) 32 - 1) := pow_add ..

theorem canonical_encoded : Canonical (compactFromTarget (targetFromCompact bits)) := by
  have plain := compactFromTarget_plain (targetFromCompact bits)
  by_cases zero : (targetFromCompact bits).toNat = 0
  · have none : compactFromTarget (targetFromCompact bits) = 0 := by
      apply UInt32.toNat_inj.mp
      rw [compactFromTarget_toNat, zero, compactOf, if_pos rfl]
      rfl
    rw [none]
    exact ⟨by decide, by decide, fun other _ _ => zero_le⟩
  · obtain ⟨isExponent, isMantissa, -⟩ := compactFromTarget_parts _ zero
    refine ⟨plain, ?_, ?_⟩
    · rw [isExponent, isMantissa]
      obtain large | lower := le_total 3 (span (targetFromCompact bits).toNat)
      · rw [Nat.sub_eq_zero_of_le large, pow_zero, Nat.mod_one]
      · rw [← Nat.pow_sub_mul_pow 256 lower, ← mul_assoc, Nat.mul_div_cancel _ (by positivity),
          Nat.mul_mod_left]
    · intro other _ same
      rw [decoded_decoded] at same
      rw [isExponent, ← same]
      exact span_le_exponent (same ▸ zero)

/-- The mantissa of a canonical encoding is all there in the target. -/
theorem Canonical.mantissa_eq {bits : UInt32} (canonical : Canonical bits) :
    (targetFromCompact bits).toNat * 256 ^ 3 = mantissa bits * 256 ^ min (exponent bits) 32 := by
  rw [targetFromCompact_toNat]
  apply Nat.div_mul_cancel
  obtain large | lower := le_total 3 (exponent bits)
  · exact Dvd.dvd.mul_left (pow_dvd_pow _ (by omega)) _
  · have whole := Nat.dvd_of_mod_eq_zero canonical.whole
    rw [← Nat.pow_sub_mul_pow 256 lower, min_eq_left (by omega)]
    exact mul_dvd_mul_right whole _

variable {other : UInt32}

theorem Canonical.eq {bits : UInt32} (canonical : Canonical bits) (otherwise : Canonical other)
    (same : targetFromCompact other = targetFromCompact bits) : other = bits := by
  have exponents : exponent other = exponent bits :=
    le_antisymm (otherwise.least bits canonical.plain same.symm)
      (canonical.least other otherwise.plain same)
  have mantissas : mantissa other = mantissa bits := by
    have equal := otherwise.mantissa_eq
    rw [same, canonical.mantissa_eq, exponents] at equal
    exact (Nat.eq_of_mul_eq_mul_right (by positivity) equal).symm
  apply UInt32.toNat_inj.mp
  rw [canonical.plain.toNat_eq, otherwise.plain.toNat_eq, exponents, mantissas]

theorem compactOf_mono {lower higher : Nat} (le : lower ≤ higher) :
    compactOf lower ≤ compactOf higher := by
  rw [compactOf, compactOf]
  split_ifs with none nothing
  · exact zero_le
  · exact zero_le
  · omega
  · have spans : span lower ≤ span higher := by
      have sizes := Nat.size_le_size le
      rw [span, span]
      omega
    obtain same | less := eq_or_lt_of_le spans
    · rw [same]
      exact Nat.add_le_add_left (Nat.div_le_div_right (Nat.mul_le_mul_right _ le)) _
    · have small := (compact_mantissa_lt lower).le
      calc span lower * 2 ^ 24 + lower * 256 ^ 3 / 256 ^ span lower
          ≤ span lower * 2 ^ 24 + 2 ^ 24 := Nat.add_le_add_left (small.trans (by decide)) _
        _ = (span lower + 1) * 2 ^ 24 := by ring
        _ ≤ span higher * 2 ^ 24 := Nat.mul_le_mul_right _ less
        _ ≤ _ := Nat.le_add_right _ _

theorem compactFromTarget_mono {lower higher : U256} (le : lower.toNat ≤ higher.toNat) :
    compactFromTarget lower ≤ compactFromTarget higher := by
  rw [UInt32.le_iff_toNat_le, compactFromTarget_toNat, compactFromTarget_toNat]
  exact compactOf_mono le

/-- Canonical encodings are ordered as the targets they encode. -/
theorem Canonical.mono {bits : UInt32} (canonical : Canonical bits) (otherwise : Canonical other)
    (le : bits ≤ other) :
    (targetFromCompact bits).toNat ≤ (targetFromCompact other).toNat := by
  by_contra above
  have encoded := (canonical_encoded bits).eq canonical (decoded_decoded bits).symm
  have otherEncoded := (canonical_encoded other).eq otherwise (decoded_decoded other).symm
  have back : other ≤ bits := by
    rw [encoded, otherEncoded]
    exact compactFromTarget_mono (by omega)
  have same : bits = other := UInt32.le_antisymm le back
  rw [same] at above
  exact above le_rfl

/-- Both decoders agree on the encodings of targets that a header may have. -/
theorem targetWithWork_eq {bits : UInt32} (low : exponent bits ≤ 32) (plain : Plain bits) :
    targetWithWork bits =
      if targetFromCompact bits = .zero then none else some (targetFromCompact bits) := by
  have decoded := targetFromCompact_toNat bits
  rw [min_eq_left low] at decoded
  have below := targetFromCompact_lt bits
  have same : (targetWithWork bits).map U256.toNat =
      if (targetFromCompact bits).toNat = 0 then none else some (targetFromCompact bits).toNat := by
    rw [targetWithWork_toNat, Chain.targetWithWork, ← mantissa, ← exponent, plain]
    have value : (if exponent bits ≤ 3 then
          if exponent bits ≤ 3 then mantissa bits / 256 ^ (3 - exponent bits) else mantissa bits
        else (if exponent bits ≤ 3 then mantissa bits / 256 ^ (3 - exponent bits)
          else mantissa bits) * 256 ^ (exponent bits - 3) % 2 ^ 256) =
        (targetFromCompact bits).toNat := by
      rw [decoded] at below ⊢
      split_ifs with short
      · rw [← Nat.pow_sub_mul_pow 256 short, Nat.mul_div_mul_right _ _ (by positivity)]
      · rw [← Nat.pow_sub_mul_pow 256 (Nat.le_of_not_le short), ← mul_assoc,
          Nat.mul_div_cancel _ (by decide)] at below ⊢
        exact Nat.mod_eq_of_lt (below.trans (by decide))
    rw [value]
    have notOver : ∀ word : Nat, ¬ (word ≠ 0 ∧ (34 < exponent bits ∨
        (0xff < word ∧ 33 < exponent bits) ∨ (0xffff < word ∧ 32 < exponent bits))) := by
      omega
    simp [notOver]
  simp only [← U256.eq_zero_iff] at same
  split_ifs with zero
  · simpa [zero] using same
  · rw [if_neg zero, Option.map_eq_some_iff] at same
    obtain ⟨found, isFound, equal⟩ := same
    rw [isFound, U256.toNat_injective equal]

/-- Encoding rounds a target down to the greatest one that can be encoded, what was decoded is
encoded canonically, both directions are monotone, and the two decoders agree. -/
theorem compact_rounds_down :
    (∀ target : U256, target.toNat < 2 ^ 255 →
      IsGreatest {number | (∃ bits, Plain bits ∧ exponent bits ≤ 32 ∧
        (targetFromCompact bits).toNat = number) ∧ number ≤ target.toNat}
        (targetFromCompact (compactFromTarget target)).toNat) ∧
    (∀ bits, targetFromCompact (compactFromTarget (targetFromCompact bits)) =
        targetFromCompact bits ∧
      Canonical (compactFromTarget (targetFromCompact bits)) ∧
      ∀ other, Canonical other → targetFromCompact other = targetFromCompact bits →
        other = compactFromTarget (targetFromCompact bits)) ∧
    (∀ lower higher : U256, lower.toNat ≤ higher.toNat →
      compactFromTarget lower ≤ compactFromTarget higher) ∧
    (∀ bits other, Canonical bits → Canonical other → bits ≤ other →
      (targetFromCompact bits).toNat ≤ (targetFromCompact other).toNat) ∧
    (∀ bits, exponent bits ≤ 32 → Plain bits → targetWithWork bits =
      if targetFromCompact bits = .zero then none else some (targetFromCompact bits)) := by
  refine ⟨?_, ?_, fun _ _ => compactFromTarget_mono, fun _ _ => Canonical.mono,
    fun _ => targetWithWork_eq⟩
  · intro target below
    have rounded : (targetFromCompact (compactFromTarget target)).toNat ≤ target.toNat := by
      rw [decoded_toNat target below]
      exact Nat.div_mul_le_self _ _
    have low : exponent (compactFromTarget target) ≤ 32 := by
      by_cases zero : target.toNat = 0
      · rw [exponent, compactFromTarget_toNat, zero, compactOf, if_pos rfl]
        decide
      · rw [(compactFromTarget_parts target zero).1]
        exact span_le (by decide) below
    refine ⟨⟨⟨_, compactFromTarget_plain target, low, rfl⟩, rounded⟩, ?_⟩
    rintro _ ⟨⟨bits, -, -, rfl⟩, le⟩
    exact le_decoded below le
  · intro bits
    refine ⟨decoded_decoded bits, canonical_encoded bits, fun other canonical same => ?_⟩
    exact (canonical_encoded bits).eq canonical (same.trans (decoded_decoded bits).symm)

theorem compact_rounds_down_of_word : 0x12345678 < 2 ^ 255 ∧
    IsGreatest {number | (∃ bits, Plain bits ∧ exponent bits ≤ 32 ∧
      (targetFromCompact bits).toNat = number) ∧ number ≤ 0x12345678} 0x12345600 := by
  let target : U256 := ⟨replicate 28 0 ++ [0x12, 0x34, 0x56, 0x78], rfl⟩
  have number : target.toNat = 0x12345678 := by decide +kernel
  have rounded : (targetFromCompact (compactFromTarget target)).toNat = 0x12345600 := by
    decide +kernel
  have greatest := compact_rounds_down.1 target (by rw [number]; decide)
  rw [number, rounded] at greatest
  exact ⟨by decide, greatest⟩

/-- Among all encodings the order of the bits is not that of the targets, and a clear sign bit
and the least exponent do not make an encoding the only one. -/
theorem encodings_not_ordered :
    ((0x0200ffff : UInt32) ≤ 0x03000001 ∧
      (targetFromCompact 0x03000001).toNat < (targetFromCompact 0x0200ffff).toNat) ∧
    (Plain 0x01010000 ∧ Plain 0x01010001 ∧ exponent 0x01010000 = exponent 0x01010001 ∧
      targetFromCompact 0x01010000 = targetFromCompact 0x01010001 ∧
      ∀ other, Plain other → targetFromCompact other = targetFromCompact 0x01010000 →
        exponent 0x01010000 ≤ exponent other) := by
  have canonical : Canonical 0x01010000 := by
    have encoded := canonical_encoded 0x01010000
    have same : compactFromTarget (targetFromCompact 0x01010000) = 0x01010000 := by decide +kernel
    rwa [same] at encoded
  exact ⟨by decide +kernel, by decide, by decide, by decide, by decide +kernel, canonical.least⟩

end BlockIndex

end Satd.Storage
