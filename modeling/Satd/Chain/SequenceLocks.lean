import Satd.Chain.MedianTime

/-!
# Sequence locks

A relative lock keeps an input unspendable for a number of blocks after its coin's block, or for a
number of 512-second units of median time. The reference node takes the last locked height and the
last locked median time over all inputs of a transaction and compares them once. Connecting a block
decides input by input with a subtraction, and so does the mempool for the next block.

The three agree because the median time past never decreases: only then does a lock of zero units
always hold.
-/

namespace Satd.Chain

open Rust Satd.Bitcoin Satd.Storage Outcome

variable (sequence : UInt32)

def disabled : Bool := sequence &&& 0x80000000 != 0

def timeBased : Bool := sequence &&& 0x00400000 != 0

def lockUnits : Nat := (sequence &&& 0xffff).toNat

/-! ## The reference -/

section Reference

variable (medianTimePast : Nat → Nat)

/-- The last locked height and time with one more input: its sequence and the height of its coin.
`medianTimePast` is that of the block at a height. -/
def tighten (locks : Int × Int) (input : UInt32 × Nat) : Int × Int :=
  if disabled input.1 then locks
  else if timeBased input.1 then
    (locks.1, max locks.2 (medianTimePast (input.2 - 1) + lockUnits input.1 <<< 9 - 1 : Int))
  else (max locks.1 (input.2 + lockUnits input.1 - 1 : Int), locks.2)

def calculateSequenceLocks (enforce : Bool) (inputs : List (UInt32 × Nat)) : Int × Int :=
  if enforce then inputs.foldl (tighten medianTimePast) (-1, -1) else (-1, -1)

variable (height : Nat) (locks : Int × Int)

def evaluateSequenceLocks : Bool := !(height ≤ locks.1 || medianTimePast (height - 1) ≤ locks.2)

variable (input : UInt32 × Nat)

/-- The input's own lock has run out in a block of the height. -/
def Unlocked : Prop :=
  disabled input.1 ∨
    if timeBased input.1 then
      medianTimePast (input.2 - 1) + lockUnits input.1 * 512 ≤ medianTimePast (height - 1)
    else input.2 + lockUnits input.1 ≤ height

variable {medianTimePast}

theorem evaluate_tighten :
    evaluateSequenceLocks medianTimePast height (tighten medianTimePast locks input) ↔
      evaluateSequenceLocks medianTimePast height locks ∧ Unlocked medianTimePast height input := by
  rw [tighten, Unlocked]
  by_cases off : disabled input.1 = true
  · simp [off]
  · by_cases time : timeBased input.1 = true
    · simp only [evaluateSequenceLocks, off, time, if_true, Bool.not_or, Bool.and_eq_true,
        Bool.not_eq_true', decide_eq_false_iff_not, false_or, Bool.false_eq_true, if_false,
        Nat.shiftLeft_eq]
      omega
    · simp only [evaluateSequenceLocks, off, time, Bool.not_or, Bool.and_eq_true,
        Bool.not_eq_true', decide_eq_false_iff_not, false_or, Bool.false_eq_true, if_false]
      omega

theorem evaluate_foldl (inputs : List (UInt32 × Nat)) :
    evaluateSequenceLocks medianTimePast height (inputs.foldl (tighten medianTimePast) locks) ↔
      evaluateSequenceLocks medianTimePast height locks ∧
        ∀ input ∈ inputs, Unlocked medianTimePast height input := by
  induction inputs generalizing locks with
  | nil => simp
  | cons input rest ih =>
    rw [List.foldl_cons, ih, evaluate_tighten, List.forall_mem_cons, and_assoc]

/-- The maxima over the inputs say no more than that each input is unlocked. -/
theorem evaluate_calculate (enforce : Bool) (inputs : List (UInt32 × Nat)) :
    evaluateSequenceLocks medianTimePast height
        (calculateSequenceLocks medianTimePast enforce inputs) ↔
      (enforce → ∀ input ∈ inputs, Unlocked medianTimePast height input) := by
  have open_ : evaluateSequenceLocks medianTimePast height (-1, -1) := by
    simp only [evaluateSequenceLocks, Bool.not_or, Bool.and_eq_true, Bool.not_eq_true',
      decide_eq_false_iff_not]
    omega
  cases enforce with
  | false => simpa [calculateSequenceLocks] using open_
  | true => simp [calculateSequenceLocks, evaluate_foldl, open_]

end Reference

/-! ## Connecting a block -/

/-- The median time past is known at every height of the window lookups and never decreases. -/
structure MediansKnown (params : ConnectParams) (medianTimePast : Nat → Nat) : Prop where
  window : ∀ height, 0 < height → height ≤ params.height →
    medianTimePastWithPlan params.store params.replayPlan height = .ok (medianTimePast (height - 1))
  tip : params.medianTimePast = medianTimePast (params.height - 1)
  mono : ∀ lower higher, lower ≤ higher → higher < params.height →
    medianTimePast lower ≤ medianTimePast higher

/-- BIP 68 applies to the transaction in the block. -/
def enforced (env : Env) (params : ConnectParams) (tx : Transaction) : Bool :=
  bip113ActivationHeight env params.network ≤ params.height && 2 ≤ tx.version

section Connect

variable {env : Env} {params : ConnectParams} {tx : Transaction} {coin : Coin}
  {medianTimePast : Nat → Nat} (medians : MediansKnown params medianTimePast)

include medians

theorem checkSequenceLock_iff {input : TxIn} (reached : coin.height ≤ params.height) :
    checkSequenceLock env params tx input coin = .ok () ↔
      (enforced env params tx → Unlocked medianTimePast params.height
        (input.sequence, coin.height)) := by
  rw [checkSequenceLock, enforced, Unlocked]
  by_cases off : disabled input.sequence = true
  · have skips : (input.sequence &&& 0x80000000 == 0) = false := by simpa [disabled] using off
    simp [skips, off]
  · have kept : (input.sequence &&& 0x80000000 == 0) = true := by simpa [disabled] using off
    have notMax : (input.sequence != 0xFFFFFFFF) = true := by
      rw [bne_iff_ne]
      rintro equal
      rw [equal] at kept
      exact absurd kept (by decide)
    simp only [kept, notMax, off, Bool.and_true, Bool.false_eq_true, false_or]
    cases applies : decide (bip113ActivationHeight env params.network ≤ params.height) &&
        decide (2 ≤ tx.version) with
    | false => simp
    | true =>
      have active : bip113ActivationHeight env params.network ≤ params.height := by
        simpa using (Bool.and_eq_true_iff.mp applies).1
      have positive : 0 < params.height := (le_max_right _ 1).trans active
      simp only [Outcome.onlyIf_true, forall_const]
      by_cases time : timeBased input.sequence = true
      · have branch : (input.sequence &&& 0x00400000 != 0) = true := time
        have before : max coin.height 1 - 1 = coin.height - 1 := by omega
        have earlier := medians.mono (coin.height - 1) (params.height - 1) (by omega) (by omega)
        rw [if_pos branch, if_pos time, medians.window _ (by omega) (by omega), before]
        simp only [Outcome.ok_bind, Outcome.failWhen_eq_ok, decide_eq_false_iff_not, medians.tip]
        rw [lockUnits]
        omega
      · have branch : ¬ (input.sequence &&& 0x00400000 != 0) = true := time
        rw [if_neg branch, if_neg time, Build.sub_of_le reached]
        simp only [Outcome.ok_bind, Outcome.failWhen_eq_ok, decide_eq_false_iff_not]
        rw [lockUnits]
        omega

end Connect

/-! ## The mempool -/

/-- The timestamp of the block at a height, if it is known. -/
def timeAt (store : Store) (position : Nat) : Option Nat :=
  ((store.getBlockHashByHeight position).bind store.getBlockIndex).map
    fun entry => entry.header.time.toNat

/-- Timestamps by height, each of them the one the rows of a store lead to. -/
structure MtpCache (store : Store) where
  times : List (Nat × Nat)
  agrees : ∀ row ∈ times, timeAt store row.1 = some row.2

/-- The window in the cache, if that holds all of it. -/
def cachedMtpWindow {store : Store} (cache : MtpCache store) (height : Nat) : Option (List Nat) :=
  let start := height - medianTimeSpan
  ((List.range' start (height - start)).mapM fun position =>
    (cache.times.find? fun row => row.1 = position).map Prod.snd).filter (· ≠ [])

/-- The median over the blocks of the window that are known, by the cache or by the store. -/
def ChainState.getMedianTimePast {store : Store} (cache : MtpCache store) (height : Nat) : Nat :=
  match cachedMtpWindow cache height with
  | some timestamps => medianOf timestamps
  | none =>
    let start := height - medianTimeSpan
    medianOf ((List.range' start (height - start)).filterMap (timeAt store))

/-- The relative lock of an input whose coin has a height, for a spend in the next block. -/
def bip68Satisfied {store : Store} (cache : MtpCache store) (sequence : UInt32)
    (prevHeight nextHeight tipMtp : Nat) : Bool :=
  if sequence &&& 0x80000000 != 0 then true
  else if sequence &&& 0x00400000 != 0 then
    (sequence &&& 0xffff).toNat <<< 9 ≤ tipMtp - ChainState.getMedianTimePast cache prevHeight
  else (sequence &&& 0xffff).toNat ≤ nextHeight - prevHeight

variable {store : Store} {cache : MtpCache store} {height : Nat}

theorem bip68Satisfied_iff {sequence : UInt32} {prevHeight nextHeight tipMtp : Nat} :
    bip68Satisfied cache sequence prevHeight nextHeight tipMtp ↔ disabled sequence ∨
      if timeBased sequence then
        lockUnits sequence * 512 ≤ tipMtp - ChainState.getMedianTimePast cache prevHeight
      else lockUnits sequence ≤ nextHeight - prevHeight := by
  change (if disabled sequence then true else if timeBased sequence then
    decide (lockUnits sequence <<< 9 ≤ _) else decide (lockUnits sequence ≤ _)) = true ↔ _
  cases disabled sequence <;> cases timeBased sequence <;> simp [Nat.shiftLeft_eq]

theorem windowTimes_known {hashAt : Nat → Option BlockHash} {positions times : List Nat}
    (found : windowTimes store hashAt height positions = .ok times) :
    (positions.filterMap fun position => ((hashAt position).bind store.getBlockIndex).map
      fun entry => entry.header.time.toNat) = times := by
  induction positions generalizing times with
  | nil => simpa [windowTimes, pure] using found
  | cons position rest ih =>
    rw [windowTimes, bind_eq_ok] at found
    obtain ⟨entry, known, found⟩ := found
    obtain ⟨others, later, equal⟩ := bind_eq_ok.mp found
    cases equal
    cases row : (hashAt position).bind store.getBlockIndex with
    | none => simp [row, ofOption] at known
    | some found =>
      obtain rfl : found = entry := by simpa [row, ofOption] using known
      rw [List.filterMap_cons, row, Option.map_some, ih later]

/-- What the cache holds are the timestamps the store has. -/
theorem MtpCache.window {positions times : List Nat}
    (found : (positions.mapM fun position =>
      (cache.times.find? fun row => row.1 = position).map Prod.snd) = some times) :
    positions.filterMap (timeAt store) = times := by
  induction positions generalizing times with
  | nil => simpa using found
  | cons position rest ih =>
    simp only [List.mapM_cons, Option.bind_eq_bind, Option.bind_eq_some_iff,
      Option.map_eq_some_iff] at found
    obtain ⟨time, ⟨row, held, rfl⟩, others, later, equal⟩ := found
    cases equal
    have known := cache.agrees row (List.mem_of_find?_eq_some held)
    have here : row.1 = position := by simpa using List.find?_some held
    rw [here] at known
    rw [List.filterMap_cons, known, ih later]

/-- A window without a gap has one median. -/
theorem ChainState.getMedianTimePast_eq {value : Nat}
    (found : medianTimePastWithPlan store none height = .ok value) :
    ChainState.getMedianTimePast cache height = value := by
  obtain ⟨times, known, equal⟩ := bind_eq_ok.mp found
  cases equal
  rw [ChainState.getMedianTimePast]
  cases held : cachedMtpWindow cache height with
  | none => exact congrArg medianOf (windowTimes_known known)
  | some cached =>
    have window := MtpCache.window (Option.filter_eq_some_iff.mp held).1
    exact congrArg medianOf (window.symm.trans (windowTimes_known known))

/-- A block's inputs pass their locks one by one exactly when the transaction passes the
reference, and the mempool says the same of each input whose coin is above the first block,
whatever its cache of timestamps holds. -/
theorem sequence_locks_agree {env : Env} {params : ConnectParams} {tx : Transaction}
    {medianTimePast : Nat → Nat} (medians : MediansKnown params medianTimePast) :
    (∀ coins : List Coin, coins.length = tx.input.length →
      (∀ coin ∈ coins, coin.height ≤ params.height) →
      ((∀ spend ∈ tx.input.zip coins, checkSequenceLock env params tx spend.1 spend.2 = .ok ()) ↔
        evaluateSequenceLocks medianTimePast params.height
          (calculateSequenceLocks medianTimePast (enforced env params tx)
            ((tx.input.zip coins).map fun spend => (spend.1.sequence, spend.2.height))))) ∧
    (params.replayPlan = none → enforced env params tx →
      ∀ (cache : MtpCache params.store) (input : TxIn) (coin : Coin),
      0 < coin.height → coin.height ≤ params.height →
      (bip68Satisfied cache input.sequence coin.height params.height
          params.medianTimePast ↔ checkSequenceLock env params tx input coin = .ok ())) := by
  constructor
  · intro coins _ reached
    rw [evaluate_calculate]
    simp only [List.forall_mem_map]
    have each : ∀ spend ∈ tx.input.zip coins,
        (checkSequenceLock env params tx spend.1 spend.2 = .ok () ↔ (enforced env params tx →
          Unlocked medianTimePast params.height (spend.1.sequence, spend.2.height))) :=
      fun spend member => checkSequenceLock_iff medians (reached spend.2 (List.of_mem_zip member).2)
    constructor
    · exact fun passes applies spend member => (each spend member).mp (passes spend member) applies
    · exact fun unlocked spend member => (each spend member).mpr fun applies =>
        unlocked applies spend member
  · intro noPlan applies cache input coin above reached
    have window := medians.window coin.height above reached
    rw [noPlan] at window
    have earlier := medians.mono (coin.height - 1) (params.height - 1) (by omega) (by omega)
    rw [checkSequenceLock_iff medians reached, bip68Satisfied_iff,
      ChainState.getMedianTimePast_eq window, medians.tip, Unlocked]
    simp only [applies, forall_const]
    apply or_congr_right
    split_ifs
    · omega
    · omega

/-- The chain whose eighth timestamp goes back, as a store. -/
def dipStore : Store where
  getCoin _ := none
  getBlockHashByHeight height := some (Hash256.repeated (UInt8.ofNat height))
  getBlockIndex := dipIndex
  getCumulativeTxCount _ := none
  getTxSeq _ := none
  getFilterHeader _ := none

/-- The timestamps of its first two blocks. -/
def dipCache : MtpCache dipStore := ⟨[(1, 1100), (0, 1000)], by decide +kernel⟩

def dipParams (network : Network) (height : Nat) : ConnectParams where
  store := dipStore
  block := ⟨(dip height).header, []⟩
  height := height
  parentChainwork := 1
  fileNumber := 0
  dataPos := 0
  verifyTransaction _ _ _ := .ok ()
  medianTimePast := medianTimePastOf (dip (height - 1)) dipIndex
  network := network
  builders := ⟨fun _ _ _ => .error "off", fun _ _ _ _ => .ok none⟩

def dipEnv : Env := ⟨⟨true⟩, ⟨fun _ => Hash256.repeated 0, fun _ => Hash256.repeated 0⟩, {}⟩

def lockedInput : TxIn := ⟨⟨Hash256.repeated 1, 0⟩, [], sequence, []⟩

def lockedTx : Transaction := ⟨2, 0, [lockedInput sequence], []⟩

def coinAt (height : Nat) : Coin := ⟨1, [], height, false, 0⟩

theorem sequence_locks_agree_on_dip :
    MediansKnown (dipParams .regtest 3) (fun height => medianTimePastOf (dip height) dipIndex) ∧
      (bip68Satisfied dipCache 0x00400001 2 3 (dipParams .regtest 3).medianTimePast ↔
        checkSequenceLock dipEnv (dipParams .regtest 3) (lockedTx 0x00400001)
          (lockedInput 0x00400001) (coinAt 2) = .ok ()) := by
  have medians : MediansKnown (dipParams .regtest 3)
      (fun height => medianTimePastOf (dip height) dipIndex) := by
    constructor
    · intro height positive within
      have bound : height ≤ 3 := within
      interval_cases height <;> decide +kernel
    · decide +kernel
    · intro lower higher below within
      have bound : higher < 3 := within
      interval_cases higher <;> interval_cases lower <;> decide +kernel
  exact ⟨medians, (sequence_locks_agree medians).2 rfl (by decide +kernel) dipCache
    (lockedInput 0x00400001) (coinAt 2) (by decide) (by decide)⟩

/-- The mempool knows no window for a coin of the first block, and holds the locks before they are
in force. -/
theorem mempool_locks_differ :
    checkSequenceLock dipEnv (dipParams .regtest 1) (lockedTx 0x00400001)
        (lockedInput 0x00400001) (coinAt 0) = .err .sequenceLockNotMet ∧
      bip68Satisfied dipCache 0x00400001 0 1 (dipParams .regtest 1).medianTimePast = true ∧
      checkSequenceLock dipEnv (dipParams .bitcoin 3) (lockedTx 5) (lockedInput 5) (coinAt 2) =
        .ok () ∧
      bip68Satisfied dipCache 5 2 3 (dipParams .bitcoin 3).medianTimePast = false := by
  decide +kernel

end Satd.Chain
