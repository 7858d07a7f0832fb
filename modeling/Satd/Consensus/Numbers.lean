import Satd.Consensus.ScriptNum
import Satd.Lib.Wire

/-!
# Script numbers

A byte string stands for a number by its sign and magnitude. Encoding gives the shortest
byte string of a number, decoding gives the number back, and the minimality check tells
the shortest byte strings from the others.
-/

namespace Satd.Consensus

open Rust Wire
open Rust.Outcome (ok_bind bind_eq_ok)

/-! ## What a byte string stands for -/

section Meaning

variable (data front : Bytes) (top : UInt8)

/-- The weight of the bit that carries the sign. -/
def signBit : Nat := 2 ^ (8 * data.length - 1)

/-- The number below the sign. -/
def magnitude : Nat := leNat data % signBit data

/-- The number a byte string stands for. -/
def signMagnitude : Int := if leNat data < signBit data then magnitude data else -magnitude data

/-- One byte less would not hold the magnitude. -/
def Minimal : Prop := data = [] ∨ signBit data ≤ 256 * magnitude data

@[simp] theorem natAbs_signMagnitude : (signMagnitude data).natAbs = magnitude data := by
  unfold signMagnitude
  split <;> simp

theorem magnitude_lt : magnitude data < signBit data := Nat.mod_lt _ (Nat.two_pow_pos _)

theorem signBit_concat : signBit (front ++ [top]) = 256 ^ front.length * 128 := by
  rw [signBit, List.length_append, List.length_singleton, show (256 : Nat) = 2 ^ 8 by rfl,
    ← pow_mul, show (128 : Nat) = 2 ^ 7 by rfl, ← pow_add]
  rfl

theorem leNat_concat :
    leNat (front ++ [top]) = leNat front + 256 ^ front.length * top.toNat := by
  simp [leNat_append, leNat]

theorem magnitude_concat :
    magnitude (front ++ [top]) = leNat front + 256 ^ front.length * (top.toNat % 128) := by
  have low : leNat front < _ := leNat_lt
  rw [magnitude, leNat_concat, signBit_concat, Nat.mod_mul, Nat.add_mul_mod_self_left,
    Nat.add_mul_div_left _ _ (by positivity), Nat.mod_eq_of_lt low, Nat.div_eq_of_lt low,
    zero_add]

/-- The sign is the top bit of the last byte. -/
theorem leNat_lt_signBit_iff :
    leNat (front ++ [top]) < signBit (front ++ [top]) ↔ top.toNat < 128 := by
  have low : leNat front < _ := leNat_lt
  rw [leNat_concat, signBit_concat]
  constructor
  · intro less
    by_contra high
    nlinarith
  · intro small
    nlinarith

/-- The sign bit stands above the magnitude. -/
theorem leNat_eq :
    leNat data = magnitude data + if leNat data < signBit data then 0 else signBit data := by
  by_cases positive : leNat data < signBit data
  · rw [magnitude, Nat.mod_eq_of_lt positive, if_pos positive, add_zero]
  have below : leNat data < 2 * signBit data := by
    rcases data.eq_nil_or_concat' with rfl | ⟨front, top, rfl⟩
    · decide
    · have whole : leNat (front ++ [top]) < _ := leNat_lt
      rw [List.length_append, List.length_singleton, pow_succ] at whole
      rw [signBit_concat]
      omega
  rw [magnitude, Nat.mod_eq_sub_mod (not_lt.mp positive), Nat.mod_eq_of_lt (by omega),
    if_neg positive]
  omega

/-- A minimal byte string is no longer than another of the same number. -/
theorem Minimal.length_le {data other : Bytes} (minimal : Minimal data)
    (same : magnitude data = magnitude other) : data.length ≤ other.length := by
  rcases minimal with rfl | wide
  · exact zero_le
  have below : 256 * magnitude other < 2 ^ (8 * other.length + 7) := by
    cases other with
    | nil => decide
    | cons byte rest =>
      have below := magnitude_lt (byte :: rest)
      rw [signBit, List.length_cons, Nat.mul_succ] at below
      rw [List.length_cons, Nat.mul_succ, add_assoc, add_comm 8, ← add_assoc, pow_add]
      exact (Nat.mul_lt_mul_of_pos_left below (by decide)).trans_eq (mul_comm _ _)
  rw [same, signBit] at wide
  have less := (Nat.pow_lt_pow_iff_right (by decide)).mp (wide.trans_lt below)
  omega

/-- A number has one minimal byte string. -/
theorem Minimal.eq {data other : Bytes} (minimal : Minimal data) (alsoMinimal : Minimal other)
    (same : signMagnitude data = signMagnitude other) : data = other := by
  have sameMagnitude : magnitude data = magnitude other := by
    rw [← natAbs_signMagnitude, same, natAbs_signMagnitude]
  have length := (minimal.length_le sameMagnitude).antisymm
    (alsoMinimal.length_le sameMagnitude.symm)
  rcases minimal with rfl | wide
  · exact (List.length_eq_zero_iff.mp length.symm).symm
  have sameBit : signBit data = signBit other := by rw [signBit, signBit, length]
  have positive : 0 < signBit data := Nat.two_pow_pos _
  have sameSign : leNat data < signBit data ↔ leNat other < signBit other := by
    unfold signMagnitude at same
    split at same <;> split at same <;> simp_all
    omega
  have numbers : leNat data = leNat other := by
    rw [leNat_eq data, leNat_eq other, sameMagnitude, sameBit]
    simp only [← sameBit, sameSign]
  rw [← leBytes_leNat data, length, numbers, leBytes_leNat]

end Meaning

/-- The top bit of a byte and the other seven, as tests on the byte see them. -/
theorem byte_bits (byte : UInt8) : (byte &&& 0x80 = 0 ↔ byte.toNat < 128) ∧
    (byte &&& 0x7f = 0 ↔ byte.toNat % 128 = 0) ∧
    (byte.toNat < 128 → (byte ||| 0x80).toNat = byte.toNat + 128) := by
  have all : ∀ n < 256, let byte := UInt8.ofNat n; (byte &&& 0x80 = 0 ↔ n < 128) ∧
      (byte &&& 0x7f = 0 ↔ n % 128 = 0) ∧ (n < 128 → (byte ||| 0x80).toNat = n + 128) := by
    decide +kernel
  simpa using all byte.toNat byte.toNat_lt

variable (build : Build) (data : Bytes)

/-- Up to eight bytes fit the word. -/
theorem shiftBytes_eq {position word : Nat} (fits : position + data.length ≤ 8)
    (below : word < 2 ^ (8 * position)) :
    shiftBytes build data position word = .ok (word + 2 ^ (8 * position) * leNat data) := by
  induction data generalizing position word with
  | nil => simp [shiftBytes, leNat]
  | cons byte rest ih =>
    simp only [List.length_cons] at fits
    have joined : word ||| byte.toNat <<< (8 * position) =
        word + 2 ^ (8 * position) * byte.toNat := by
      rw [Nat.or_comm, ← Nat.shiftLeft_add_eq_or_of_lt below, Nat.shiftLeft_eq]
      ring
    have wide : 2 ^ (8 * (position + 1)) = 256 * 2 ^ (8 * position) := by ring
    rw [shiftBytes, Build.shiftAmount_of_lt build (by omega), ok_bind, joined, ih (by omega), leNat,
      wide]
    · congr 1
      ring
    · have small : byte.toNat < 256 := byte.toNat_lt
      rw [wide]
      nlinarith

/-- Clearing the sign leaves the bits below it. -/
theorem clearSign_eq {word amount : Nat} (inside : amount ≤ 56) (small : word < 2 ^ (amount + 8)) :
    clearSign word amount = word % 2 ^ (amount + 7) := by
  have bit : (0x80 <<< amount) % 2 ^ 64 = 2 ^ (amount + 7) := by
    rw [Nat.shiftLeft_eq, show (0x80 : Nat) = 2 ^ 7 by rfl, ← pow_add, add_comm]
    exact Nat.mod_eq_of_lt (Nat.pow_lt_pow_right (by decide) (by omega))
  rw [clearSign, bit, Nat.sub_sub, add_comm 1]
  apply Nat.eq_of_testBit_eq
  intro place
  have above : amount + 7 < place → word.testBit place = false := fun high =>
    Nat.testBit_lt_two_pow (small.trans_le (Nat.pow_le_pow_right (by decide) high))
  rw [Nat.testBit_and, Nat.testBit_two_pow_sub_succ (Nat.pow_lt_pow_right (by decide) (by omega)),
    Nat.testBit_two_pow, Nat.testBit_mod_two_pow]
  grind

theorem index_last (front : Bytes) (top : UInt8) :
    (.index (front ++ [top]) front.length : Exec UInt8) = .ok top := by
  simp [Outcome.index]

/-- Up to eight bytes decode to the number they stand for. -/
theorem decodeBytes_eq (short : data.length ≤ 8) :
    decodeBytes build data = .ok (signMagnitude data) := by
  rcases data.eq_nil_or_concat' with rfl | ⟨front, top, rfl⟩
  · rfl
  have length : (front ++ [top]).length = front.length + 1 := by simp
  rw [length] at short
  have bound : signBit (front ++ [top]) ≤ 2 ^ 63 := by
    rw [signBit]
    exact Nat.pow_le_pow_right (by decide) (by omega)
  have below := magnitude_lt (front ++ [top])
  rw [decodeBytes, shiftBytes_eq build _ (by omega) (by simp), if_neg (by simp), signMagnitude]
  simp only [length, ok_bind, mul_zero, pow_zero, one_mul, zero_add, index_last,
    Build.sub_of_le (Nat.le_add_left 1 _), Nat.add_sub_cancel, bne_iff_ne, ne_eq,
    (byte_bits top).1, ← leNat_lt_signBit_iff front top]
  split
  next negative =>
    have small : leNat (front ++ [top]) < _ := leNat_lt
    rw [length, show (256 : Nat) = 2 ^ 8 by rfl, ← pow_mul, Nat.mul_succ] at small
    have cleared : clearSign (leNat (front ++ [top])) (8 * front.length) =
        magnitude (front ++ [top]) := by
      rw [clearSign_eq (by omega) small, magnitude, signBit, length, Nat.mul_succ]
      rfl
    rw [Build.shiftAmount_of_lt build (by omega), ok_bind, cleared, Build.toI64,
      if_pos (by omega), Build.signed_of_fits]
    exact .inl (by omega)
  next positive =>
    rw [not_not] at positive
    rw [Build.toI64, if_pos (by omega), magnitude, Nat.mod_eq_of_lt positive, if_pos positive]

theorem checkMinimalNumber_iff : checkMinimalNumber build data = .ok () ↔ Minimal data := by
  rcases data.eq_nil_or_concat' with rfl | ⟨front, top, rfl⟩
  · simp [checkMinimalNumber, Minimal]
  have length : (front ++ [top]).length = front.length + 1 := by simp
  rw [checkMinimalNumber, if_neg (by simp), Minimal, or_iff_right (by simp), magnitude_concat,
    signBit_concat]
  simp only [length, Build.sub_of_le (Nat.le_add_left 1 _), Nat.add_sub_cancel, ok_bind,
    index_last, beq_iff_eq, (byte_bits top).2.1]
  split
  next bare =>
    rcases front.eq_nil_or_concat' with rfl | ⟨rest, before, rfl⟩
    · simp [leNat, bare]
    have beforeLast :
        (.index (rest ++ [before] ++ [top]) rest.length : Exec UInt8) = .ok before := by
      simp [Outcome.index]
    have low : leNat rest < _ := leNat_lt
    rw [if_neg (by simp), Build.sub_of_le (by simp), ok_bind]
    simp only [List.length_append, List.length_singleton, Nat.reduceSubDiff, beforeLast, ok_bind,
      leNat_concat, bare, pow_succ, mul_zero, add_zero, Outcome.failWhen_eq_ok,
      beq_eq_false_iff_ne, ne_eq, (byte_bits before).1]
    refine ⟨fun high => ?_, fun wide high => ?_⟩
    · have := Nat.mul_le_mul_left (256 ^ rest.length) (not_lt.mp high)
      omega
    · have := Nat.mul_le_mul_left (256 ^ rest.length) (Nat.le_of_lt_succ high)
      omega
  next full =>
    have := Nat.mul_le_mul_left (256 ^ front.length) (Nat.one_le_iff_ne_zero.mpr full)
    exact ⟨fun _ => by omega, fun _ => rfl⟩

/-! ## Encoding -/

/-- The bytes of a magnitude stand for it, and the last of them is needed. -/
theorem magnitudeBytes_spec {passes value : Nat} (fits : value < 256 ^ passes) :
    leNat (magnitudeBytes passes value) = value ∧
      (0 < value → 256 ^ (magnitudeBytes passes value).length ≤ 256 * value) := by
  induction passes generalizing value with
  | zero =>
    obtain rfl : value = 0 := by simpa using fits
    exact ⟨rfl, fun positive => absurd positive (by decide)⟩
  | succ passes ih =>
    rw [magnitudeBytes]
    split
    next zero => exact ⟨zero.symm, fun positive => absurd zero positive.ne'⟩
    next nonzero =>
      obtain ⟨same, wide⟩ := ih (Nat.div_lt_of_lt_mul (by rwa [pow_succ, mul_comm] at fits))
      have byte : (UInt8.ofNat (value % 256)).toNat = value % 256 := by simp
      refine ⟨by rw [leNat, same, byte]; omega, fun _ => ?_⟩
      rw [List.length_cons, pow_succ]
      rcases Nat.eq_zero_or_pos (value / 256) with none | more
      · rw [none]
        cases passes <;> simp [magnitudeBytes] <;> omega
      · have := wide more
        omega

/-- A byte string with the sign and the magnitude of a number stands for it, and is minimal if the
bytes before the last would not do. -/
theorem minimal_concat {front : Bytes} {top : UInt8} {value : Int}
    (size : leNat front + 256 ^ front.length * (top.toNat % 128) = value.natAbs)
    (sign : top.toNat < 128 ↔ 0 ≤ value) (wide : 256 ^ front.length ≤ 2 * value.natAbs) :
    Minimal (front ++ [top]) ∧ signMagnitude (front ++ [top]) = value := by
  rw [Minimal, signBit_concat, signMagnitude, magnitude_concat, size]
  simp only [leNat_lt_signBit_iff, sign]
  constructor
  · omega
  · split <;> omega

/-- A number is encoded as its minimal byte string. -/
theorem serializeI64_eq {value : Int} (fits : value.natAbs < 256 ^ 8) :
    ∃ bytes, serializeI64 build value = .ok bytes ∧ Minimal bytes ∧
      signMagnitude bytes = value := by
  rw [serializeI64]
  split
  next zero => exact ⟨[], rfl, .inl rfl, zero.symm⟩
  next nonzero =>
    obtain ⟨same, wide⟩ := magnitudeBytes_spec fits
    have wide := wide (Int.natAbs_pos.mpr nonzero)
    rcases (magnitudeBytes 8 value.natAbs).eq_nil_or_concat' with empty | ⟨front, top, isBytes⟩
    · rw [empty] at same
      exact absurd same.symm (Int.natAbs_pos.mpr nonzero).ne'
    rw [isBytes] at same wide
    simp only [List.length_append, List.length_singleton, pow_succ] at wide
    simp only [isBytes, List.length_append, List.length_singleton, Nat.add_sub_cancel, ok_bind,
      index_last, Build.sub_of_le (Nat.le_add_left 1 _), bne_iff_ne, ne_eq, (byte_bits top).1]
    split
    next high =>
      have := Nat.mul_le_mul_left (256 ^ front.length) (not_lt.mp high)
      rw [leNat_concat] at same
      refine ⟨_, rfl, minimal_concat ?_ (by split <;> simp <;> omega) ?_⟩
      · rw [leNat_concat, same]
        split <;> rfl
      · rw [List.length_append, List.length_singleton, pow_succ]
        omega
    next low =>
      rw [not_not] at low
      rw [leNat_concat] at same
      have byte := (byte_bits top).2.2 low
      have isTop : top.toNat % 128 = top.toNat := Nat.mod_eq_of_lt low
      split
      next negative =>
        have bare : (top ||| 0x80).toNat % 128 = top.toNat := by omega
        exact ⟨front ++ [top ||| 0x80], by simp,
          minimal_concat (by rw [bare, same]) (by omega) (by omega)⟩
      next positive => exact ⟨_, rfl, minimal_concat (by rw [isTop, same]) (by omega) (by omega)⟩

/-- Encoding is the shortest inverse of decoding, for every signed word but the lowest, and with
the minimal flag a number of up to eight bytes is read exactly if it is the encoding of its
value. -/
theorem script_numbers (build : Build) :
    (∀ value : Int, value.natAbs < 2 ^ 63 → ∃ bytes, serializeI64 build value = .ok bytes ∧
      decodeBytes build bytes = .ok value ∧
      ∀ other, decodeBytes build other = .ok value → bytes.length ≤ other.length) ∧
    ∀ data limit, limit ≤ 8 ∨ data.length ≤ 8 →
      ((∃ value, fromBytes build data true limit = .ok value) ↔ data.length ≤ limit ∧
        ∃ value, decodeBytes build data = .ok value ∧ serializeI64 build value = .ok data) := by
  refine ⟨fun value small => ?_, fun data limit bounded => ?_⟩
  · obtain ⟨bytes, encoded, minimal, rfl⟩ := serializeI64_eq build (small.trans (by decide))
    rw [natAbs_signMagnitude] at small
    have few : bytes.length ≤ 8 := by
      rcases minimal with rfl | wide
      · exact zero_le
      · have less : 2 ^ (8 * bytes.length - 1) < 2 ^ 71 := wide.trans_lt (by omega)
        have := (Nat.pow_lt_pow_iff_right (by decide)).mp less
        omega
    refine ⟨bytes, encoded, decodeBytes_eq build bytes (by omega), fun other decoded => ?_⟩
    by_cases long : other.length ≤ 8
    · rw [decodeBytes_eq build other long, Outcome.ok.injEq] at decoded
      exact minimal.length_le (by rw [← natAbs_signMagnitude, ← decoded, natAbs_signMagnitude])
    · omega
  · by_cases few : data.length ≤ 8
    · have fits : (signMagnitude data).natAbs < 256 ^ 8 := by
        have wide : signBit data ≤ 2 ^ 63 := Nat.pow_le_pow_right (by decide) (by omega)
        have := magnitude_lt data
        rw [natAbs_signMagnitude]
        omega
      obtain ⟨bytes, encoded, minimal, same⟩ := serializeI64_eq build fits
      have isMinimal : Minimal data ↔ bytes = data :=
        ⟨fun also => minimal.eq also same, fun isSame => isSame ▸ minimal⟩
      simp [fromBytes, bind_eq_ok, checkMinimalNumber_iff build data, isMinimal,
        decodeBytes_eq build data few, encoded]
    · have long : limit < data.length := by omega
      simp [fromBytes, long]

theorem script_numbers_of_negative :
    (∃ bytes, serializeI64 ⟨true⟩ (-255) = .ok bytes ∧ decodeBytes ⟨true⟩ bytes = .ok (-255)) ∧
      ∃ value, fromBytes ⟨true⟩ [0xff, 0x80] true 4 = .ok value := by
  obtain ⟨encodes, accepts⟩ := script_numbers ⟨true⟩
  obtain ⟨bytes, encoded, decoded, -⟩ := encodes (-255) (by decide)
  exact ⟨⟨bytes, encoded, decoded⟩, (accepts _ 4 (by decide)).mpr ⟨by decide, -255, rfl, rfl⟩⟩

end Satd.Consensus
