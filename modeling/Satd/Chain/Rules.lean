import Satd.Storage.Store
import Satd.Validation.Transaction

/-!
# Rules that depend on the height

Networks and the heights at which their rules begin, the block subsidy, the
header rules, transaction finality, the coinbase height, the median time past,
and when an unspent transaction may be overwritten.
-/

namespace Satd.Chain

open Rust Satd.Bitcoin Satd.Storage Satd.Validation Outcome
open Satd.Consensus (Bytes)

inductive Network where
  | bitcoin | testnet | testnet4 | signet | regtest
  deriving DecidableEq, Repr

/-- Why a block was not connected. -/
inductive ConnectError where
  | missingOrSpentInput (outpoint : OutPoint)
  | prematureCoinbaseSpend | badAmounts | badCoinbaseValue | badBlockSigops | badBip30
  | scriptFailed (reason : String)
  | locktimeNotFinal | sequenceLockNotMet | badCoinbaseHeight
  | txValidation (error : ValidationError)
  | filterIndexEmit (reason : String)
  | spIndexEmit (reason : String)
  | chainTxGap (parent : BlockHash)
  | medianTimeWindowGap (height missing : Nat)
  | txSeqOverflow | interrupted
  deriving DecidableEq

/-- The outcome of a connect step. -/
abbrev Connecting (α : Type) := Outcome ConnectError α

/-- A context-free check inside a connect. -/
def validated : Except ValidationError Unit → Connecting PUnit
  | .ok () => .ok PUnit.unit
  | .error error => .err (.txValidation error)

variable {check : Except ValidationError Unit} {height : Nat} {store : Store}

theorem validated_eq_ok {result : PUnit} : validated check = .ok result ↔ check = .ok () := by
  cases check <;> simp [validated]

theorem validated_safe : Safe (validated check) (fun _ => check = .ok ()) := by
  cases check <;> simp [validated]

/-! ## Activation heights -/

structure ActivationHeights where
  p2sh : Nat
  bip34 : Nat
  dersig : Nat
  cltv : Nat
  csv : Nat
  segwit : Nat
  taproot : Nat
  deriving DecidableEq, Repr

/-- Regtest's own heights for buried deployments, from the command line. -/
structure TestActivationOverrides where
  bip34 : Option Nat := none
  dersig : Option Nat := none
  cltv : Option Nat := none
  csv : Option Nat := none
  segwit : Option Nat := none
  deriving DecidableEq, Repr

def ActivationHeights.withOverrides (heights : ActivationHeights)
    (overrides : TestActivationOverrides) : ActivationHeights where
  p2sh := heights.p2sh
  bip34 := overrides.bip34.getD heights.bip34
  dersig := overrides.dersig.getD heights.dersig
  cltv := overrides.cltv.getD heights.cltv
  csv := overrides.csv.getD heights.csv
  segwit := overrides.segwit.getD heights.segwit
  taproot := max heights.taproot (overrides.segwit.getD 0)

/-- What a run of the node fixes: how it was built, its hash functions, and the
activation heights it was started with. -/
structure Env where
  build : Build
  hashing : Hashing
  overrides : TestActivationOverrides := {}

variable (env : Env)

def activationHeights : Network → ActivationHeights
  | .bitcoin => ⟨173_805, 227_931, 363_725, 388_381, 419_328, 481_824, 709_632⟩
  | .testnet => ⟨395, 21_111, 330_776, 581_885, 770_112, 834_624, 834_624⟩
  | .testnet4 => ⟨0, 1, 0, 0, 0, 0, 0⟩
  | .signet => ⟨0, 1, 0, 0, 0, 0, 0⟩
  | .regtest => (⟨0, 1, 0, 0, 0, 0, 0⟩ : ActivationHeights).withOverrides env.overrides

variable (network : Network)

def bip34ActivationHeight : Nat := max (activationHeights env network).bip34 1

def bip113ActivationHeight : Nat := max (activationHeights env network).csv 1

def bip66ActivationHeight : Nat := max (activationHeights env network).dersig 1

def bip65ActivationHeight : Nat := max (activationHeights env network).cltv 1

/-! ## Subsidy -/

def halvingInterval : Network → Nat
  | .regtest => 150
  | _ => 210_000

/-- The coinbase reward at a height. -/
def blockSubsidy (height : Nat) : Nat :=
  let halvings := height / halvingInterval network
  if 64 ≤ halvings then 0 else (50 * 100_000_000) >>> halvings

/-! ## Headers -/

/-- The mandatory minimum block version. -/
def checkBlockVersion (header : Header) (height : Nat) (network : Network) :
    Except ValidationError Unit :=
  let version := asI32 header.version
  if (version < 2 ∧ bip34ActivationHeight env network ≤ height) ∨
      (version < 3 ∧ bip66ActivationHeight env network ≤ height) ∨
      (version < 4 ∧ bip65ActivationHeight env network ≤ height) then
    .error (.badVersion header.version)
  else .ok ()

/-- The header rules that need the height and the parent's median time past. -/
def checkHeaderTimeAndVersion (header : Header) (height medianTimePast : Nat)
    (network : Network) : Except ValidationError Unit :=
  if header.time.toNat ≤ medianTimePast then .error .timeTooOld
  else checkBlockVersion env header height network

/-! ## Transactions in a block -/

/-- The time that lock times are measured against. -/
def lockTimeCutoff (height medianTimePast blockTime : Nat) (network : Network) : Nat :=
  if bip113ActivationHeight env network ≤ height then medianTimePast else blockTime

/-- Drop zero bytes from the end. -/
def stripTrailingZeros (bytes : Bytes) : Bytes := (bytes.reverse.dropWhile (· == 0)).reverse

/-- The bytes a coinbase script must start with. -/
def bip34HeightPrefix (height : Nat) : Bytes :=
  if height = 0 then [0x00]
  else if height ≤ 16 then [UInt8.ofNat (0x50 + height)]
  else
    let number := stripTrailingZeros (Wire.leBytes 4 height)
    let padded :=
      if number.getLast?.any (fun byte => byte &&& 0x80 != 0) then number ++ [0x00] else number
    UInt8.ofNat padded.length :: padded

variable (tx : Transaction)

/-- The lock time is not yet met at this height. -/
def lockTimeUnmet (height cutoff : Nat) : Bool :=
  let locktime := tx.lockTime.toNat
  !(tx.input.all fun input => input.sequence == 0xFFFFFFFF) && 0 < locktime &&
    (if locktime < 500_000_000 then height ≤ locktime else cutoff ≤ locktime)

/-- The coinbase does not start with the height it is mined at. -/
def coinbaseHeightMissing (height : Nat) (network : Network) : Bool :=
  tx.isCoinbase && bip34ActivationHeight env network ≤ height &&
    !(tx.input.head?.any fun input => (bip34HeightPrefix height).isPrefixOf input.scriptSig)

/-- What a transaction must satisfy before its inputs are looked at. -/
def checkTransactionContext (height cutoff : Nat) (network : Network) : Connecting PUnit := do
  validated (checkTransaction tx)
  failWhen (lockTimeUnmet tx height cutoff) .locktimeNotFinal
  failWhen (coinbaseHeightMissing env tx height network) .badCoinbaseHeight

/-! ## Median time past -/

def medianTimeSpan : Nat := 11

/-- The middle element of the sorted list, zero for the empty list. -/
def medianOf (timestamps : List Nat) : Nat :=
  if timestamps = [] then 0
  else (timestamps.insertionSort (· ≤ ·)).getD (timestamps.length / 2) 0

/-- The timestamps of the blocks at the given heights, all of which must be known. -/
def windowTimes (store : Store) (hashAt : Nat → Option BlockHash) (height : Nat) :
    List Nat → Connecting (List Nat)
  | [] => pure []
  | position :: rest => do
    let entry ← ofOption (.medianTimeWindowGap height position)
      ((hashAt position).bind store.getBlockIndex)
    let times ← windowTimes store hashAt height rest
    pure (entry.header.time.toNat :: times)

/-- The median time past for a height, resolved through a replay plan when given. -/
def medianTimePastWithPlan (store : Store) (plan : Option (Nat → Option BlockHash))
    (height : Nat) : Connecting Nat := do
  let hashAt := plan.getD store.getBlockHashByHeight
  let start := height - medianTimeSpan
  let times ← windowTimes store hashAt height (List.range' start (height - start))
  pure (medianOf times)

theorem windowTimes_safe {hashAt : Nat → Option BlockHash} {positions : List Nat} :
    Safe (windowTimes store hashAt height positions) := by
  induction positions with
  | nil => trivial
  | cons position rest ih =>
    apply (Safe.ofOption _ _).forget.andThen
    intro entry
    apply ih.andThen
    intro times
    trivial

/-- A median time past is found or reported missing. -/
theorem medianTimePastWithPlan_safe {plan : Option (Nat → Option BlockHash)} :
    Safe (medianTimePastWithPlan store plan height) := by
  apply (windowTimes_safe).andThen
  intro times
  trivial

/-! ## Overwriting an unspent transaction -/

def bip34ImpliesBip30Limit : Nat := 1_983_702

/-- An unspent transaction must not be overwritten at this height, unless the
block is one of the two exceptions. -/
def bip30Enforced (height : Nat) (ancestorAt : Nat → Option BlockHash) : Bool :=
  let unlessBuried (bip34Height bip34Hash : Nat) : Bool :=
    height ≤ bip34Height || (ancestorAt bip34Height).all (fun hash => hash.display ≠ bip34Hash)
  if bip34ImpliesBip30Limit ≤ height then true
  else
    match network with
    | .bitcoin =>
      unlessBuried 227_931 0x000000000000024b89b42a942fe0d9fea3bb44ab7bd1b19115dd6a759c0808b8
    | .testnet =>
      unlessBuried 21_111 0x0000000023b3a96d3484e5abb3755c413e7d41500f8e2a5c3f0dd01299cd8ef8
    | _ => true

/-- The two blocks that duplicate an earlier coinbase. -/
def bip30Exempt (height : Nat) (hash : BlockHash) : Bool :=
  network == .bitcoin &&
    ((height == 91_842 &&
      hash.display == 0x00000000000a4d0a398161ffc163c503763b1f4360639393e0e4c8e300e0caec) ||
    (height == 91_880 &&
      hash.display == 0x00000000000743f190a18c5577a3c2d2a1f610ae9601ac046a38084ccb7cd721))

/-! ## Work -/

/-- The target that compact bits encode, unless it is negative, too large or zero. -/
def targetWithWork (bits : UInt32) : Option Nat :=
  let compact := bits.toNat
  let size := compact / 2 ^ 24
  let mantissa := compact % 2 ^ 23
  let word := if size ≤ 3 then mantissa / 256 ^ (3 - size) else mantissa
  let target := if size ≤ 3 then word else word * 256 ^ (size - 3) % 2 ^ 256
  let negative := word ≠ 0 ∧ compact / 2 ^ 23 % 2 = 1
  let overflow := word ≠ 0 ∧ (34 < size ∨ (0xff < word ∧ 33 < size) ∨ (0xffff < word ∧ 32 < size))
  if ¬negative ∧ ¬overflow ∧ target ≠ 0 then some target else none

/-- The work of one block with the given bits: the complement of the divisor is divided by it. -/
def workForBits (bits : UInt32) : Nat :=
  match targetWithWork bits with
  | some target =>
    let divisor := target + 1
    if divisor = 2 ^ 256 then 1 else (2 ^ 256 - 1 - divisor) / divisor + 1
  | none => 0

/-- Addition of 256-bit numbers that stays at the largest. -/
def addU256 (left right : Nat) : Nat := min (left + right) (2 ^ 256 - 1)

end Satd.Chain
