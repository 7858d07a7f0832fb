import Satd.Consensus.Interface

/-!
# Script numbers

Numbers on the script stack are sign-magnitude byte strings, least significant
byte first. Decoding works on a 64-bit word: every byte is shifted into place
and the sign bit is cleared again. Operands are limited to four bytes, or five
for lock times, which keeps each shift and each later sum inside the word. The
lemmas here state that once, for every caller.
-/

namespace Satd.Consensus

open Rust Outcome
open Rust.Outcome (Safe Extends failWhen ok_bind)

/-- Default maximum byte length of a script number. -/
def defaultMaxNumSize : Nat := 4

variable (build : Build)

/-- The bits of the bytes at positions `position` onwards, on top of `word`. -/
def shiftBytes : Bytes → Nat → Nat → Exec Nat
  | [], _, word => .ok word
  | byte :: rest, position, word => do
    let amount ← build.shiftAmount 64 (8 * position)
    shiftBytes rest (position + 1) (word ||| byte.toNat <<< amount)

/-- Clear the sign bit of the byte that was shifted by `amount`. -/
def clearSign (word amount : Nat) : Nat := word &&& (2 ^ 64 - 1 - (0x80 <<< amount) % 2 ^ 64)

variable (data : Bytes)

/-- Decode a sign-magnitude byte string. -/
def decodeBytes : Exec Int :=
  if data.isEmpty then .ok 0
  else do
    let result ← shiftBytes build data 0 0
    let last ← build.sub 64 data.length 1
    let sign ← index data last
    if sign &&& 0x80 != 0 then do
      let amount ← build.shiftAmount 64 (8 * last)
      build.signed 64 (-Build.toI64 (clearSign result amount))
    else .ok (Build.toI64 result)

/-- A number whose last byte carries only a sign is not minimal, unless the
byte before it needs its top bit. -/
def checkMinimalNumber : Exec Unit :=
  if data.isEmpty then .ok ()
  else do
    let last ← build.sub 64 data.length 1
    let top ← index data last
    if top &&& 0x7f == 0 then
      if data.length ≤ 1 then .err .scriptNum
      else do
        let beforeLast ← build.sub 64 data.length 2
        let before ← index data beforeLast
        failWhen (before &&& 0x80 == 0) .scriptNum
    else .ok ()

variable (requireMinimal : Bool)

/-- Decode a stack element, with the limits of the calling opcode. Every caller
reports the failure as a script-number error. -/
def fromBytes (maxNumSize : Nat) : Exec Int := do
  failWhen (data.length > maxNumSize) .scriptNum
  onlyIf requireMinimal (checkMinimalNumber build data)
  decodeBytes build data

/-- Decode with the default limit. -/
def fromBytesDefault : Exec Int := fromBytes build data requireMinimal defaultMaxNumSize

variable (value : Int)

/-- The number as a 32-bit integer, clamped. -/
def getint : Int :=
  if value > 2147483647 then 2147483647
  else if value < -2147483648 then -2147483648
  else value

/-- The bytes of a 64-bit magnitude up to its last nonzero one; eight passes of
the loop exhaust the word. -/
def magnitudeBytes : Nat → Nat → Bytes
  | 0, _ => []
  | passes + 1, magnitude =>
    if magnitude = 0 then []
    else UInt8.ofNat (magnitude % 256) :: magnitudeBytes passes (magnitude / 256)

/-- Encode a number as a sign-magnitude byte string. -/
def serializeI64 : Exec Bytes :=
  if value = 0 then .ok []
  else do
    let result := magnitudeBytes 8 value.natAbs
    let last ← build.sub 64 result.length 1
    let top ← index result last
    if top &&& 0x80 != 0 then .ok (result ++ [if value < 0 then 0x80 else 0x00])
    else if value < 0 then .ok (result.set last (top ||| 0x80))
    else .ok result

/-- Sum of two numbers. -/
def addNum (left right : Int) : Exec Int := build.signed 64 (left + right)

/-- Difference of two numbers. -/
def subNum (left right : Int) : Exec Int := build.signed 64 (left - right)

/-- Negate a number; the least 64-bit integer has no negation. -/
def negate : Exec Int := do
  assert (value != -((2 ^ 63 : Nat) : Int))
  build.signed 64 (-value)

/-- A boolean as a number. -/
def numOfBool (value : Bool) : Int := if value then 1 else 0

/-- Scan for a nonzero byte; a lone sign bit in the last byte does not count. -/
def castToBoolFrom (length : Nat) : Nat → Bytes → Exec Bool
  | _, [] => .ok false
  | position, byte :: rest =>
    if byte != 0 then do
      let last ← build.sub 64 length 1
      .ok (!(position == last && byte == 0x80))
    else castToBoolFrom length (position + 1) rest

/-- Whether a stack element counts as true. -/
def castToBool (vch : Bytes) : Exec Bool := castToBoolFrom build vch.length 0 vch

def stackTrue : Bytes := [1]

def stackFalse : Bytes := []

/-- The stack element for a boolean. -/
def boolItem (value : Bool) : Bytes := if value then stackTrue else stackFalse

/-! ## Decoding is safe and bounded -/

/-- Numbers that decoding can return: well inside the 64-bit range. -/
def Moderate : Prop := value.natAbs < 2 ^ 40

variable {value right : Int} {word limit : Nat}

/-- Sums and differences of moderate numbers fit a 64-bit integer. -/
theorem fitsSigned_of_natAbs (bound : value.natAbs < 2 ^ 42) : Build.FitsSigned 64 value := by
  exact .inl (by omega)

private theorem shifted_byte_lt (byte : UInt8) (position : Nat) :
    byte.toNat <<< (8 * position) < 2 ^ (8 * (position + 1)) := by
  have small : byte.toNat < 2 ^ 8 := byte.toNat_lt
  rw [Nat.shiftLeft_eq, Nat.mul_succ, pow_add, mul_comm]
  exact Nat.mul_lt_mul_of_pos_left small (Nat.two_pow_pos _)

/-- Up to eight bytes fit the word, and the result needs no more bits than the
bytes that went into it. -/
theorem shiftBytes_safe (position word : Nat)
    (fits : position + data.length ≤ 8) (below : word < 2 ^ (8 * position)) :
    Safe (shiftBytes build data position word)
      (fun result => result < 2 ^ (8 * (position + data.length))) := by
  induction data generalizing position word with
  | nil => simpa [shiftBytes] using below
  | cons byte rest ih =>
    simp only [List.length_cons] at fits ⊢
    simp only [shiftBytes]
    rw [Build.shiftAmount_of_lt build (by omega : 8 * position < 64)]
    have widened : word < 2 ^ (8 * (position + 1)) :=
      lt_of_lt_of_le below (pow_le_pow_right₀ (by decide) (by omega))
    have combined := Nat.or_lt_two_pow widened (shifted_byte_lt byte position)
    have rested := ih (position + 1) _ (by omega) combined
    rwa [show position + 1 + rest.length = position + (rest.length + 1) by omega] at rested

private theorem clearSign_le {amount : Nat} : clearSign word amount ≤ word := by
  exact Nat.and_le_left

private theorem toI64_of_small (small : word < 2 ^ 40) : Build.toI64 word = word := by
  have inside : word < 2 ^ 63 := by omega
  exact if_pos inside

private theorem moderate_of_small (small : word < 2 ^ 40) : Moderate word := by
  simpa [Moderate] using small

private theorem moderate_neg (bound : Moderate value) : Moderate (-value) := by
  simpa [Moderate] using bound

/-- A moderate number fits a 64-bit integer. -/
theorem Moderate.fitsSigned (bound : Moderate value) : Build.FitsSigned 64 value := by
  unfold Moderate at bound
  exact fitsSigned_of_natAbs (by omega)

/-- Decoding at most five bytes is safe and returns a moderate number. -/
theorem decodeBytes_safe (short : data.length ≤ 5) : Safe (decodeBytes build data) Moderate := by
  unfold decodeBytes
  by_cases empty : data.isEmpty
  · simp [empty, Moderate]
  · have positive : 0 < data.length := by
      cases data with
      | nil => simp at empty
      | cons byte rest => simp
    simp only [empty, Bool.false_eq_true, if_false]
    refine .bind (shiftBytes_safe build data 0 0 (by omega) (by simp)) ?_
    intro result bounded
    have small : result < 2 ^ 40 :=
      lt_of_lt_of_le bounded (pow_le_pow_right₀ (by decide) (by omega))
    refine .sub positive ?_
    refine .bind (.index (by omega)) ?_
    intro sign _
    split
    · rw [Build.shiftAmount_of_lt build (by omega : 8 * (data.length - 1) < 64)]
      simp only [ok_bind]
      have cleared : clearSign result (8 * (data.length - 1)) < 2 ^ 40 :=
        lt_of_le_of_lt (clearSign_le) small
      have moderate := moderate_neg (moderate_of_small cleared)
      rw [toI64_of_small cleared, Build.signed_of_fits moderate.fitsSigned]
      exact moderate
    · rw [toI64_of_small small]
      exact moderate_of_small small

/-- The minimality check never reads outside the number. -/
theorem checkMinimalNumber_safe : Safe (checkMinimalNumber build data) := by
  unfold checkMinimalNumber
  cases data with
  | nil => simp
  | cons byte rest =>
    refine .sub (by simp) ?_
    refine .bind (.index (by simp)) ?_
    intro top _
    split
    · split
      · simp
      · refine .sub (by omega) ?_
        refine .bind (.index (by omega)) ?_
        intro before _
        exact .refuse
    · simp

/-- Decoding with a limit of at most five bytes is safe and bounded. -/
theorem fromBytes_safe (short : limit ≤ 5) :
    Safe (fromBytes build data requireMinimal limit) Moderate := by
  refine .bind (.failWhen _ _) ?_
  intro _ within
  have lengthBound : data.length ≤ 5 := by
    simp only [decide_eq_false_iff_not] at within
    omega
  refine .bind (.onlyIf (fun _ => checkMinimalNumber_safe build data)) ?_
  intro _ _
  exact decodeBytes_safe build data lengthBound

variable {build data requireMinimal} in
theorem fromBytesDefault_safe : Safe (fromBytesDefault build data requireMinimal) Moderate :=
  fromBytes_safe _ _ _ (by decide)

/-- Dropping the minimality requirement only accepts more numbers. -/
theorem fromBytes_extends {lenient strict : Bool} (implies : lenient = true → strict = true) :
    Extends (fromBytes build data lenient limit) (fromBytes build data strict limit) := by
  refine .bind (.refl _) ?_
  intro _
  refine .bind (.onlyIf implies (.refl _)) ?_
  intro _
  exact .refl _

/-! ## Encoding, arithmetic and truth values are safe -/

private theorem magnitudeBytes_ne_nil {passes magnitude : Nat} (positive : 0 < magnitude) :
    magnitudeBytes (passes + 1) magnitude ≠ [] := by
  simp [magnitudeBytes, ne_of_gt positive]

/-- Encoding never reads outside the bytes it has produced. -/
theorem serializeI64_safe : Safe (serializeI64 build value) := by
  unfold serializeI64
  by_cases zero : value = 0
  · simp [zero]
  · have produced : 0 < (magnitudeBytes 8 value.natAbs).length :=
      List.length_pos_of_ne_nil (magnitudeBytes_ne_nil (Int.natAbs_pos.mpr zero))
    simp only [zero, if_false]
    refine .sub produced ?_
    refine .bind (.index (by omega)) ?_
    intro top _
    split
    · simp
    · split <;> simp

theorem addNum_safe {left : Int} (leftBound : Moderate left) (rightBound : Moderate right) :
    Safe (addNum build left right) := by
  unfold Moderate at leftBound rightBound
  unfold addNum
  rw [Build.signed_of_fits (fitsSigned_of_natAbs (by omega))]
  simp

theorem subNum_safe {left : Int} (leftBound : Moderate left) (rightBound : Moderate right) :
    Safe (subNum build left right) := by
  unfold Moderate at leftBound rightBound
  unfold subNum
  rw [Build.signed_of_fits (fitsSigned_of_natAbs (by omega))]
  simp

/-- A decoded number is never the one that has no negation. -/
theorem negate_safe (bound : Moderate value) : Safe (negate build value) := by
  unfold Moderate at bound
  unfold negate
  have nonMinimum : (value != -((2 ^ 63 : Nat) : Int)) = true := by
    rw [bne_iff_ne]
    omega
  rw [nonMinimum, Build.signed_of_fits (fitsSigned_of_natAbs (by omega))]
  simp

/-- The scan subtracts from the length only while a byte is left. -/
theorem castToBool_safe {vch : Bytes} : Safe (castToBool build vch) := by
  have scan : ∀ (rest : Bytes) (position length : Nat), rest.length ≤ length →
      Safe (castToBoolFrom build length position rest) := by
    intro rest
    induction rest with
    | nil => simp [castToBoolFrom]
    | cons byte rest ih =>
      intro position length inside
      simp only [List.length_cons] at inside
      simp only [castToBoolFrom]
      split
      · rw [Build.sub_of_le (by omega : 1 ≤ length)]
        simp
      · exact ih (position + 1) length (by omega)
  exact scan vch 0 vch.length (le_refl _)

end Satd.Consensus
