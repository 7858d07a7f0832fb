import Satd.Chain.RoundTrip

/-!
# Chains neither inflate nor double spend

The value in a chain is followed through the transaction loop of a connect by a
`Ledger`: what is left of the stored coins, what the block's own transactions
have earned, the fees so far and what the current transaction has paid in never
exceed the stored coins together. The bound also keeps every sum inside its
machine word, so that no addition or subtraction overflows.

Over a whole chain the coins are worth at most the subsidies of the connected
heights, and an outpoint is consumed at most as often as it was created.
-/

namespace Satd.Chain

open Rust KeyedMap Satd.Bitcoin Satd.Storage Satd.Validation Option Finset
open Rust.Outcome (Safe ok_bind)

/-! ## Amounts -/

/-- The value of a coin. -/
def amountOf (_ : OutPoint) (coin : Coin) : Nat := coin.amount

/-- The value of a coin that was not minted. -/
def earnedOf (_ : OutPoint) (coin : Coin) : Nat := if coin.coinbase then 0 else coin.amount

/-- The value of a coin that was minted. -/
def mintedOf (_ : OutPoint) (coin : Coin) : Nat := if coin.coinbase then coin.amount else 0

/-- The value of all coins. -/
def supply (coins : Map OutPoint Coin) : Nat := total amountOf coins

/-- The keys of the coins a batch removes. -/
def removedKeys (batch : StoreBatch) : List OutPoint := batch.coinRemoves.map Prod.fst

/-- The keys of the coins a batch puts. -/
def putKeys (batch : StoreBatch) : List OutPoint := batch.coinPuts.map Prod.fst

/-- Every coin is minted or earned. -/
theorem amountOf_eq :
    amountOf = fun outpoint coin => earnedOf outpoint coin + mintedOf outpoint coin := by
  funext outpoint coin
  unfold amountOf earnedOf mintedOf
  split <;> simp

/-- A sum of amounts whose total fits is exact in every build. -/
theorem sumAmounts_eq_ok (env : Env) {start : Nat} {outputs : List TxOut}
    (fits : start + outputTotal outputs < 2 ^ 64) :
    sumAmounts env start outputs = .ok (start + outputTotal outputs) := by
  induction outputs generalizing start with
  | nil => rfl
  | cons output rest ih =>
    rw [outputTotal_cons] at fits ⊢
    rw [sumAmounts, env.build.add_of_lt (by omega), ok_bind, ih (by omega)]
    congr 1
    omega

variable {tx : Transaction} {height : Nat} {state : ConnectState}

/-- The money supply fits in a machine word. -/
theorem outputs_fit (checked : Checked tx) : 0 + outputTotal tx.output < 2 ^ 64 := by
  have value := checked.value
  have bound : maxMoney < 2 ^ 64 := by decide
  omega

/-! ## The ledger of a block -/

/-- What holds between any two steps of the transaction loop, when the current
transaction has paid in `paid` and coinbases have created at most `minted`. -/
structure Ledger (params : ConnectParams) (coins : Map OutPoint Coin) (state : ConnectState)
    (paid minted : Nat) : Prop where
  balance : total amountOf (removeAll coins (removedKeys state.batch)) +
    total earnedOf state.intraBlockCoins + state.totalFees + paid ≤ supply coins
  mint : total mintedOf state.intraBlockCoins ≤ minted
  height : ∀ outpoint coin, state.intraBlockCoins.lookup outpoint = some coin →
    coin.height = params.height
  tracked : ∀ outpoint, outpoint ∈ state.spentInBlock ↔ outpoint ∈ removedKeys state.batch
  distinct : (removedKeys state.batch).Nodup
  latest : ∀ outpoint, outpoint ∉ state.spentInBlock →
    state.intraBlockCoins.lookup outpoint = lastPut outpoint state.batch.coinPuts
  created : ∀ outpoint coin, state.intraBlockCoins.lookup outpoint = some coin →
    outpoint ∈ putKeys state.batch
  sourced : ∀ outpoint ∈ removedKeys state.batch, outpoint ∈ coins ∨ outpoint ∈ putKeys state.batch
  counts : state.batch.chainTxPuts = []

section Block

variable {env : Env} {params : ConnectParams} {context : BlockContext}
  {coins : Map OutPoint Coin} {paid minted : Nat}

/-- Before the first transaction nothing has moved. -/
theorem Ledger.initial : Ledger params coins {} 0 0 := by
  constructor
  · simp [removedKeys, supply]
  all_goals simp [removedKeys, putKeys, lastPut]

variable {before : ConnectState} {coin : Coin} {txIdx inIdx : Nat} {input : TxIn}

/-- A passed maturity check rules out a coinbase coin of the same height. -/
theorem not_coinbase_of_mature (mature : checkMaturity env height coin = .ok PUnit.unit)
    (same : coin.height = height) :
    coin.coinbase = false := by
  cases coinbase : coin.coinbase with
  | false => rfl
  | true =>
    simp [checkMaturity, coinbase, same, coinbaseMaturity] at mature

/-- The coins of the block after a recorded spend are among those before it. -/
theorem lookup_recordSpend_intra {outpoint other : OutPoint} {held : Coin}
    (found : (recordSpend env params context txIdx inIdx outpoint coin
      state).intraBlockCoins.lookup other = some held) :
    state.intraBlockCoins.lookup other = some held := by
  simp only [recordSpend] at found
  split at found
  · exact found
  · rw [lookup_erase] at found
    split at found
    · cases found
    · exact found

/-- What the transaction loop is run with: a store that holds `coins`, none of
them from a later height and worth less than a signed word together. -/
structure Setting (params : ConnectParams) (context : BlockContext) (coins : Map OutPoint Coin) :
    Prop where
  reads : ∀ outpoint, params.store.getCoin outpoint = coins.lookup outpoint
  resolves : Resolves params context.preResolved
  small : supply coins < 2 ^ 63
  heights : ∀ outpoint coin, coins.lookup outpoint = some coin → coin.height ≤ params.height
  txids : context.txids.length = params.block.txdata.length

section Spend

variable (ledger : Ledger params coins state paid minted) (setting : Setting params context coins)
  (atTx : params.block.txdata[txIdx]? = some tx) (atInput : tx.input[inIdx]? = some input)
  (found : findCoin params context txIdx inIdx input.previousOutput state = some coin)

include setting atTx atInput found

/-- A found coin is one of the store or one of the block's own. -/
theorem findCoin_source : coins.lookup input.previousOutput = some coin ∨
    context.preResolved.lookup (txIdx, inIdx) = none ∧
      state.intraBlockCoins.lookup input.previousOutput = some coin := by
  rw [findCoin, or_eq_some_iff, or_eq_some_iff] at found
  rcases found with (early | ⟨notEarly, created⟩) | ⟨-, fallback⟩
  · rw [← setting.reads]
    exact .inl (setting.resolves txIdx tx inIdx input coin atTx atInput early)
  · exact .inr ⟨notEarly, created⟩
  · rw [← setting.reads]
    exact .inl fallback

include ledger

/-- A found coin is from a height already reached. -/
theorem Ledger.found_height : coin.height ≤ params.height := by
  rcases findCoin_source setting atTx atInput found with stored | ⟨-, created⟩
  · exact setting.heights _ _ stored
  · exact le_of_eq (ledger.height _ _ created)

variable (unspent : input.previousOutput ∉ state.spentInBlock)
  (mature : checkMaturity env params.height coin = .ok PUnit.unit)

include unspent mature

/-- What a found coin pays comes out of the stored coins or out of the block's
own, and what remains of the two covers the rest. -/
theorem Ledger.pays :
    total amountOf ((removeAll coins (removedKeys state.batch)).erase input.previousOutput) +
      total earnedOf (recordSpend env params context txIdx inIdx input.previousOutput coin
        state).intraBlockCoins + coin.amount ≤
    total amountOf (removeAll coins (removedKeys state.batch)) +
      total earnedOf state.intraBlockCoins := by
  have stored := total_erase amountOf (removeAll coins (removedKeys state.batch))
    input.previousOutput
  have intra := total_erase earnedOf state.intraBlockCoins input.previousOutput
  have keptIntra : total earnedOf (recordSpend env params context txIdx inIdx
      input.previousOutput coin state).intraBlockCoins ≤ total earnedOf state.intraBlockCoins := by
    simp only [recordSpend]
    split
    · exact le_refl _
    · omega
  -- An unspent outpoint still has its stored coin.
  have untouched : ∀ held, coins.lookup input.previousOutput = some held →
      weightAt amountOf (removeAll coins (removedKeys state.batch)) input.previousOutput =
        held.amount := by
    intro held present
    apply weightAt_of_lookup
    rw [lookup_removeAll, if_neg (fun listed => unspent ((ledger.tracked _).mpr listed)), present]
  rcases findCoin_source setting atTx atInput found with present | ⟨notEarly, created⟩
  · have weight := untouched coin present
    omega
  · have earned : coin.coinbase = false := not_coinbase_of_mature mature (ledger.height _ _ created)
    have weight : weightAt earnedOf state.intraBlockCoins input.previousOutput = coin.amount := by
      rw [weightAt_of_lookup created]
      simp [earnedOf, earned]
    have erased : (recordSpend env params context txIdx inIdx input.previousOutput coin
        state).intraBlockCoins = state.intraBlockCoins.erase input.previousOutput := by
      simp [recordSpend, notEarly]
    rw [erased]
    omega

/-- Spending a coin moves its value from the stored or the earned coins to what
the transaction has paid in. -/
theorem Ledger.recordSpend :
    Ledger params coins
      (recordSpend env params context txIdx inIdx input.previousOutput coin state)
      (paid + coin.amount) minted := by
  obtain ⟨removes, puts, -⟩ := recordSpend_batch env params context txIdx inIdx input.previousOutput
    coin state
  have removed : removedKeys (Chain.recordSpend env params context txIdx inIdx
      input.previousOutput coin state).batch =
        removedKeys state.batch ++ [input.previousOutput] := by
    simp [removedKeys, removes]
  have putSame : putKeys (Chain.recordSpend env params context txIdx inIdx
      input.previousOutput coin state).batch = putKeys state.batch := by
    rw [putKeys, puts, putKeys]
  have pays := ledger.pays setting atTx atInput found unspent mature
  constructor
  · rw [removed, removeAll_append]
    have before := ledger.balance
    have fees : (Chain.recordSpend env params context txIdx inIdx input.previousOutput coin
      state).totalFees = state.totalFees := rfl
    simp only [removeAll_cons, removeAll_nil]
    omega
  · have intra := total_erase mintedOf state.intraBlockCoins input.previousOutput
    have before := ledger.mint
    simp only [Chain.recordSpend]
    split
    · exact before
    · omega
  · intro outpoint held present
    exact ledger.height outpoint held (lookup_recordSpend_intra present)
  · intro outpoint
    rw [removed, List.mem_append, List.mem_singleton, ← ledger.tracked]
    simp only [Chain.recordSpend, mem_insert]
    exact Or.comm
  · rw [removed]
    apply List.Nodup.append ledger.distinct (List.nodup_singleton _)
    intro outpoint listed same
    rw [List.mem_singleton] at same
    subst same
    exact unspent ((ledger.tracked _).mpr listed)
  · intro outpoint stillUnspent
    rw [puts]
    simp only [Chain.recordSpend, mem_insert, not_or] at stillUnspent
    rw [← ledger.latest outpoint stillUnspent.2]
    simp only [Chain.recordSpend]
    split
    · rfl
    · rw [lookup_erase, if_neg (Ne.symm stillUnspent.1)]
  · intro outpoint held present
    rw [putSame]
    exact ledger.created outpoint held (lookup_recordSpend_intra present)
  · intro outpoint listed
    rw [removed, List.mem_append, List.mem_singleton] at listed
    rw [putSame]
    rcases listed with older | rfl
    · exact ledger.sourced outpoint older
    · rcases findCoin_source setting atTx atInput found with present | ⟨-, created⟩
      · exact .inl (Finmap.mem_iff.mpr ⟨coin, present⟩)
      · exact .inr (ledger.created _ _ created)
  · rw [(recordSpend_batch ..).2.2]
    exact ledger.counts

end Spend

/-- The height checks are safe for a coin of a height already reached. -/
theorem checkMaturity_safe (reached : coin.height ≤ height) :
    Safe (checkMaturity env height coin) := by
  apply Safe.onlyIf
  intro _
  apply Safe.sub reached
  exact .refuse

theorem checkSequenceLock_safe (reached : coin.height ≤ params.height) :
    Safe (checkSequenceLock env params tx input coin) := by
  apply Safe.onlyIf
  intro _
  apply Safe.ite
  · intro _
    apply (medianTimePastWithPlan_safe).andThen
    intro mtpCoin
    exact .refuse
  · intro _
    apply Safe.sub reached
    exact .refuse

/-- Spending an input is safe and keeps the ledger. -/
theorem spendInput_safe {before : Spending} (setting : Setting params context coins)
    (ledger : Ledger params coins before.state before.sumInputs minted)
    (atTx : params.block.txdata[txIdx]? = some tx) (atInput : tx.input[inIdx]? = some input) :
    Safe (spendInput env params context tx txIdx inIdx input before)
      (fun after => Ledger params coins after.state after.sumInputs minted ∧
        after.prevOutputs.length = before.prevOutputs.length + 1) := by
  rw [spendInput]
  apply Safe.check
  intro notSpent
  have unspent : input.previousOutput ∉ before.state.spentInBlock := by simpa using notSpent
  apply (Safe.ofOption _ _).bind
  intro coin found
  have reached := ledger.found_height setting atTx atInput found
  apply (checkMaturity_safe reached).remember.bind
  intro _ mature
  apply (checkSequenceLock_safe reached).andThen
  intro _
  have kept := ledger.recordSpend setting atTx atInput found unspent mature.1
  -- The new balance bounds the sum itself.
  have fits : before.sumInputs + coin.amount < 2 ^ 64 := by
    have balance := kept.balance
    have small := setting.small
    omega
  rw [env.build.add_of_lt fits, ok_bind]
  exact ⟨kept, by simp⟩

/-- Spending the inputs of a transaction is safe and keeps the ledger. -/
theorem spendInputs_safe {inputs : List TxIn} {before : Spending}
    (setting : Setting params context coins)
    (ledger : Ledger params coins before.state before.sumInputs minted)
    (atTx : params.block.txdata[txIdx]? = some tx) (remaining : tx.input.drop inIdx = inputs) :
    Safe (spendInputs env params context tx txIdx inIdx inputs before)
      (fun after => Ledger params coins after.state after.sumInputs minted ∧
        after.prevOutputs.length = before.prevOutputs.length + inputs.length) := by
  induction inputs generalizing inIdx before with
  | nil => exact ⟨ledger, rfl⟩
  | cons input rest ih =>
    obtain ⟨atInput, tail⟩ := of_drop_eq_cons remaining
    rw [spendInputs]
    apply (spendInput_safe setting ledger atTx atInput).bind
    intro middle stepped
    obtain ⟨middleLedger, middleLength⟩ := stepped
    apply (ih middleLedger tail).mono
    intro after done
    obtain ⟨afterLedger, afterLength⟩ := done
    refine ⟨afterLedger, ?_⟩
    rw [afterLength, middleLength, List.length_cons]
    omega

/-- Counting signature operations changes only their number. -/
theorem countSigops_safe {prevOutputs : List TxOut}
    (matched : tx.isCoinbase = true ∨ prevOutputs.length = tx.input.length) :
    Safe (countSigops env params tx prevOutputs before)
      (fun after => ∃ blockSigops, after = { before with blockSigops }) := by
  have cost : ∀ flags, Safe (transactionSigopCost tx prevOutputs flags : Connecting Nat) := by
    intro flags
    rcases matched with coinbase | lengths
    · exact transactionSigopCost_coinbase_safe prevOutputs flags coinbase
    · exact transactionSigopCost_safe flags lengths
  rw [countSigops]
  apply (cost _).andThen
  intro cost
  apply Safe.check
  intro _
  exact ⟨_, rfl⟩

/-- The part of a transaction's payment that its outputs do not claim becomes a fee. -/
theorem Ledger.takeFee {sumInputs sumOutputs : Nat}
    (ledger : Ledger params coins state sumInputs minted) (enough : sumOutputs ≤ sumInputs) :
    Ledger params coins
      { state with totalFees := state.totalFees + (sumInputs - sumOutputs) } sumOutputs minted := by
  have balance := ledger.balance
  exact { ledger with balance := by simp only; omega }

/-- Spending a transaction is safe; afterwards its outputs are paid for. -/
theorem spendTransaction_safe (setting : Setting params context coins)
    (ledger : Ledger params coins before 0 minted) (atTx : params.block.txdata[txIdx]? = some tx)
    (checked : Checked tx) :
    Safe (spendTransaction env params context tx txIdx before)
      (fun after => Ledger params coins after (outputTotal tx.output) minted) := by
  rw [spendTransaction]
  have start : Ledger params coins ({ state := before } : Spending).state
      ({ state := before } : Spending).sumInputs minted := ledger
  apply (spendInputs_safe setting start atTx rfl).bind
  intro spent done
  obtain ⟨spentLedger, spentLength⟩ := done
  rw [sumAmounts_eq_ok env (outputs_fit checked), ok_bind, zero_add]
  apply Safe.check
  intro paidFor
  have enough : outputTotal tx.output ≤ spent.sumInputs := by simpa using paidFor
  have feeLedger := spentLedger.takeFee enough
  have fits : spent.state.totalFees + (spent.sumInputs - outputTotal tx.output) < 2 ^ 64 := by
    have balance := spentLedger.balance
    have small := setting.small
    omega
  rw [env.build.add_of_lt fits, ok_bind]
  have matched : spent.prevOutputs.length = tx.input.length := by simpa using spentLength
  apply (countSigops_safe (.inr matched)).bind
  intro counted same
  obtain ⟨blockSigops, rfl⟩ := same
  exact { feeLedger with }

/-! ## Outputs -/

variable {coinbase : Bool} {txseq : Nat} {queue : List (Transaction × List TxOut)}

/-- An output of a spending transaction moves what it is worth from the payment
to the earned coins; one of a coinbase is minted. -/
theorem Ledger.addOutput {txid : Txid} {vout : Nat} {output : TxOut}
    (ledger : Ledger params coins state
      (paid + if coinbase then 0 else output.value.toNat) minted) :
    Ledger params coins (addOutput env params txid coinbase txseq vout output state) paid
      (minted + if coinbase then output.value.toNat else 0) := by
  have balance := ledger.balance
  have mint := ledger.mint
  unfold Chain.addOutput
  split
  · exact { ledger with balance := by omega, mint := by omega }
  · generalize place : (⟨txid, .ofNat vout⟩ : OutPoint) = outpoint
    generalize worth : (⟨output.value.toNat, output.scriptPubkey, params.height, coinbase, txseq⟩ :
      Coin) = coin
    have earned := total_insert earnedOf state.intraBlockCoins outpoint coin
    have created := total_insert mintedOf state.intraBlockCoins outpoint coin
    have earnedBy : earnedOf outpoint coin = if coinbase then 0 else output.value.toNat := by
      simp [earnedOf, ← worth]
    have mintedBy : mintedOf outpoint coin = if coinbase then output.value.toNat else 0 := by
      simp [mintedOf, ← worth]
    constructor
    · simp only [removedKeys] at balance ⊢
      omega
    · simp only
      omega
    · intro other held present
      rw [lookup_insert] at present
      split at present
      · cases present
        simp [← worth]
      · exact ledger.height other held present
    · exact ledger.tracked
    · exact ledger.distinct
    · intro other unspent
      rw [lookup_insert, lastPut_append, ← ledger.latest other unspent]
      simp only [lastPut, none_or]
      split <;> simp
    · intro other held present
      rw [lookup_insert] at present
      simp only [putKeys, List.map_append, List.mem_append, List.map_cons, List.map_nil,
        List.mem_singleton]
      split at present
      · next same => exact .inr same.symm
      · exact .inl (ledger.created other held present)
    · intro other listed
      simp only [putKeys, List.map_append, List.mem_append]
      rcases ledger.sourced other listed with stored | put
      · exact .inl stored
      · exact .inr (.inl put)
    · exact ledger.counts

/-- The outputs of a transaction leave nothing of its payment. -/
theorem Ledger.addOutputs {txid : Txid} {vout : Nat} {outputs : List TxOut}
    (ledger : Ledger params coins state
      (paid + if coinbase then 0 else outputTotal outputs) minted) :
    Ledger params coins (addOutputs env params txid coinbase txseq vout outputs state) paid
      (minted + if coinbase then outputTotal outputs else 0) := by
  induction outputs generalizing state vout minted with
  | nil => simpa [Chain.addOutputs] using ledger
  | cons output rest ih =>
    have split : Ledger params coins state
        ((paid + if coinbase then 0 else outputTotal rest) +
          if coinbase then 0 else output.value.toNat) minted := by
      cases coinbase with
      | true => simpa using ledger
      | false => simpa [add_comm, add_left_comm] using ledger
    have added : Ledger params coins (Chain.addOutput env params txid coinbase txseq vout output
        state) _ _ := split.addOutput
    have done : Ledger params coins (Chain.addOutputs env params txid coinbase txseq (vout + 1) rest
        (Chain.addOutput env params txid coinbase txseq vout output state)) paid _ :=
      ih added
    rw [Chain.addOutputs]
    cases coinbase with
    | true => simpa [add_assoc] using done
    | false => simpa using done

/-! ## The transaction loop -/

/-- What a transaction mints. -/
def mintedBy (params : ConnectParams) (tx : Transaction) : Nat :=
  if tx.isCoinbase && addsOutputs params tx then outputTotal tx.output else 0

/-- Outputs left out of the coins stay paid for. -/
theorem Ledger.drop (ledger : Ledger params coins state paid minted) :
    Ledger params coins state 0 minted := by
  have balance := ledger.balance
  exact { ledger with balance := by omega }

theorem checkTransactionContext_safe {cutoff : Nat} {network : Network} :
    Safe (checkTransactionContext env tx height cutoff network) (fun _ => Checked tx) := by
  rw [checkTransactionContext]
  apply (validated_safe).bind
  intro _ passed
  apply Safe.check
  intro _
  apply (Safe.failWhen _ _).mono
  intro _ _
  exact checked_of_checkTransaction passed

section

variable (setting : Setting params context coins)
include setting

/-- Spending or counting a checked transaction leaves its outputs paid for,
unless it is a coinbase. -/
theorem spendOrCount_safe
    (ledger : Ledger params coins before 0 minted) (atTx : params.block.txdata[txIdx]? = some tx)
    (checked : Checked tx) :
    Safe (if tx.isCoinbase then countSigops env params tx [] before
        else spendTransaction env params context tx txIdx before)
      (fun after => Ledger params coins after
        (0 + if tx.isCoinbase then 0 else outputTotal tx.output) minted) := by
  cases coinbase : tx.isCoinbase with
  | true =>
    apply (countSigops_safe (.inl coinbase)).mono
    rintro after ⟨blockSigops, rfl⟩
    exact { ledger with }
  | false =>
    simp only [Bool.false_eq_true, if_false, zero_add]
    exact spendTransaction_safe setting ledger atTx checked

/-- Processing a transaction is safe and adds what it mints to the ledger. -/
theorem connectTransaction_safe
    (ledger : Ledger params coins before 0 minted) (atTx : params.block.txdata[txIdx]? = some tx) :
    Safe (connectTransaction env params context txIdx tx before)
      (fun after => Ledger params coins after 0 (minted + mintedBy params tx) ∧ Checked tx) := by
  have inside : txIdx < context.txids.length := by
    rw [setting.txids]
    exact (List.getElem?_eq_some_iff.mp atTx).1
  rw [connectTransaction]
  apply (Safe.index inside).forget.andThen
  intro txid
  apply checkTransactionContext_safe.bind
  intro _ checked
  apply (spendOrCount_safe setting ledger atTx checked).bind
  intro spent paidFor
  apply Safe.check
  intro _
  refine ⟨?_, checked⟩
  cases adds : addsOutputs params tx with
  | true =>
    have funded : Ledger params coins (addOutputs env params txid tx.isCoinbase
        (context.firstTxseq + txIdx) 0 tx.output spent) 0 _ := paidFor.addOutputs
    have same : mintedBy params tx = if tx.isCoinbase then outputTotal tx.output else 0 := by
      simp [mintedBy, adds]
    rw [same]
    rw [addsOutputs] at adds
    simp only [adds, if_true]
    exact { funded with }
  | false =>
    have same : mintedBy params tx = 0 := by
      simp [mintedBy, adds]
    rw [same]
    rw [addsOutputs] at adds
    simp only [adds, Bool.false_eq_true, if_false]
    exact { paidFor.drop with }

/-- Processing the transactions of a block is safe and keeps the ledger. -/
theorem connectTransactions_safe {txs : List Transaction}
    (ledger : Ledger params coins before 0 minted)
    (remaining : params.block.txdata.drop txIdx = txs) :
    Safe (connectTransactions env params context txIdx txs before)
      (fun after => Ledger params coins after 0 (minted + (txs.map (mintedBy params)).sum) ∧
        ∀ tx ∈ txs, Checked tx) := by
  induction txs generalizing txIdx before minted with
  | nil => exact ⟨by simpa using ledger, by simp⟩
  | cons tx rest ih =>
    obtain ⟨atTx, tail⟩ := of_drop_eq_cons remaining
    rw [connectTransactions]
    apply (connectTransaction_safe setting ledger atTx).bind
    rintro middle ⟨middleLedger, checked⟩
    apply (ih middleLedger tail).mono
    rintro after ⟨afterLedger, restChecked⟩
    constructor
    · rw [List.map_cons, List.sum_cons, ← add_assoc]
      exact afterLedger
    · intro other member
      rcases List.mem_cons.mp member with rfl | inRest
      · exact checked
      · exact restChecked other inRest

end

/-! ## Connecting a block -/

theorem verifySequential_safe {position : Nat} : Safe (verifySequential params position queue) := by
  induction queue generalizing position with
  | nil => trivial
  | cons queued rest ih =>
    rw [verifySequential]
    apply Safe.check
    intro _
    split
    · trivial
    · exact ih

theorem verifyScripts_safe : Safe (verifyScripts params queue) := by
  apply Safe.ite
  · intro _
    exact verifySequential_safe
  · intro _
    simp only [verifyParallel]
    split <;> trivial

/-- Only the first transaction of the block may be a coinbase. -/
def OneCoinbase (block : Block) : Prop := ∀ tx ∈ block.txdata.tail, tx.isCoinbase = false

instance (block : Block) : Decidable (OneCoinbase block) := by
  unfold OneCoinbase
  infer_instance

/-- A block with one coinbase mints no more than its first transaction. -/
theorem sum_mintedBy_of_oneCoinbase {first : Transaction} {rest : List Transaction}
    (transactions : params.block.txdata = first :: rest) (single : OneCoinbase params.block) :
    (params.block.txdata.map (mintedBy params)).sum = mintedBy params first := by
  have others : rest.map (mintedBy params) = List.replicate rest.length 0 := by
    apply List.eq_replicate_iff.mpr
    constructor
    · simp
    · intro value listed
      obtain ⟨tx, inRest, rfl⟩ := List.mem_map.mp listed
      have earned : tx.isCoinbase = false := by
        apply single
        rw [transactions]
        exact inRest
      simp [mintedBy, earned]
  rw [transactions, List.map_cons, List.sum_cons, others]
  simp

/-- The fees are paid out of the stored coins. -/
theorem Ledger.fees_le (ledger : Ledger params coins state paid minted) :
    state.totalFees ≤ supply coins := by
  have balance := ledger.balance
  omega

/-- The subsidy of a block is at most fifty coins. -/
theorem blockSubsidy_le (network : Network) (height : Nat) :
    blockSubsidy network height ≤ 5_000_000_000 := by
  simp only [blockSubsidy]
  split
  · exact zero_le
  · rw [Nat.shiftRight_eq_div_pow]
    exact Nat.div_le_self _ _

section

variable (ledger : Ledger params coins state paid minted)
include ledger

/-- The value check is safe, and after it a block with one coinbase has minted at
most the subsidy and the fees. -/
theorem checkCoinbaseValue_safe
    (small : supply coins < 2 ^ 63) (checked : ∀ tx ∈ params.block.txdata, Checked tx) :
    Safe (checkCoinbaseValue env params state.totalFees)
      (fun _ => OneCoinbase params.block → (params.block.txdata.map (mintedBy params)).sum ≤
        blockSubsidy params.network params.height + state.totalFees) := by
  have fees := ledger.fees_le
  have subsidy := blockSubsidy_le params.network params.height
  have fits : blockSubsidy params.network params.height + state.totalFees < 2 ^ 64 := by omega
  unfold checkCoinbaseValue
  split
  · next empty =>
    intro _
    simp [empty]
  · next first rest transactions =>
    have fitsFirst := outputs_fit (checked first (by simp [transactions]))
    cases genesis : params.isGenesis with
    | true =>
      intro single
      rw [sum_mintedBy_of_oneCoinbase transactions single, mintedBy, addsOutputs, genesis]
      cases first.isCoinbase <;> simp
    | false =>
      rw [Bool.not_false, Outcome.onlyIf_true, sumAmounts_eq_ok env fitsFirst, ok_bind,
        env.build.add_of_lt fits, ok_bind]
      apply (Safe.failWhen _ _).mono
      intro _ passed single
      have within : outputTotal first.output ≤
          blockSubsidy params.network params.height + state.totalFees := by
        simpa using passed
      rw [sum_mintedBy_of_oneCoinbase transactions single, mintedBy]
      split
      · exact within
      · exact zero_le

/-- The coins after a block are stored coins it did not spend or coins of its own. -/
theorem Ledger.lookup_applyCoins
    {outpoint : OutPoint} (found : (state.batch.applyCoins coins).lookup outpoint = some coin) :
    (removeAll coins (removedKeys state.batch)).lookup outpoint = some coin ∨
      state.intraBlockCoins.lookup outpoint = some coin := by
  rw [StoreBatch.lookup_applyCoins] at found
  split at found
  · cases found
  · next kept =>
    have unspent : outpoint ∉ state.spentInBlock := by
      rw [ledger.tracked]
      exact kept
    rcases or_eq_some_iff.mp found with put | ⟨-, stored⟩
    · right
      rw [ledger.latest outpoint unspent]
      exact put
    · left
      rw [lookup_removeAll, removedKeys, if_neg kept]
      exact stored

/-- A block adds at most what it minted and takes its fees away. -/
theorem Ledger.supply_le :
    supply (state.batch.applyCoins coins) + state.totalFees ≤ supply coins + minted := by
  have covered : supply (state.batch.applyCoins coins) ≤
      total amountOf (removeAll coins (removedKeys state.batch)) +
        total amountOf state.intraBlockCoins :=
    total_le_add (fun _ _ found => ledger.lookup_applyCoins found)
  have parts : total amountOf state.intraBlockCoins =
      total earnedOf state.intraBlockCoins + total mintedOf state.intraBlockCoins := by
    rw [amountOf_eq, total_add]
  have balance := ledger.balance
  have mint := ledger.mint
  omega

end

end Block

/-- What a connect needs of its caller and of the store it reads: the store holds
`coins`, none of them from a later height and worth less than a signed word
together, its transaction counts are small, and a transaction has an identifier. -/
structure Ready (env : Env) (params : ConnectParams) (coins : Map OutPoint Coin) : Prop where
  reads : ∀ outpoint, params.store.getCoin outpoint = coins.lookup outpoint
  small : supply coins < 2 ^ 63
  heights : ∀ outpoint coin, coins.lookup outpoint = some coin → coin.height ≤ params.height
  counts : ∀ parent count, params.store.getCumulativeTxCount parent = some count → count ≤ txseqMax
  txids : (params.txids env).length = params.block.txdata.length
  length : params.block.txdata.length < 2 ^ 63

/-- What the batch of a connected block does to the coins. -/
structure Connected (params : ConnectParams) (coins : Map OutPoint Coin) (batch : StoreBatch) :
    Prop where
  value : OneCoinbase params.block →
    supply (batch.applyCoins coins) ≤ supply coins + blockSubsidy params.network params.height
  height : ∀ outpoint coin, (batch.applyCoins coins).lookup outpoint = some coin →
    coins.lookup outpoint = some coin ∨ coin.height = params.height
  distinct : (removedKeys batch).Nodup
  sourced : ∀ outpoint ∈ removedKeys batch, outpoint ∈ coins ∨ outpoint ∈ putKeys batch
  counts : ∀ row ∈ batch.chainTxPuts, row.2 ≤ txseqMax

section Whole

variable {env : Env} {params : ConnectParams} {coins : Map OutPoint Coin}

theorem preResolve_safe {blockTxids : List Txid} :
    Safe (preResolve params blockTxids) (Resolves params) := by
  have noPanic : Safe (preResolve params blockTxids) := by
    rw [preResolve]
    apply Safe.check
    intro _
    apply Safe.check
    intro _
    trivial
  apply noPanic.remember.mono
  intro preResolved returned
  exact preResolve_resolves returned.1

theorem firstOrdinal_safe (ready : Ready env params coins) :
    Safe (firstOrdinal params) (fun firstTxseq => firstTxseq ≤ txseqMax) := by
  apply Safe.ite
  · intro _
    exact zero_le
  · intro _
    apply (Safe.ofOption _ _).mono
    intro firstTxseq found
    exact ready.counts _ _ found

/-- The index rows leave the coins and the transaction counts alone. -/
theorem emitFilter_safe :
    Safe (emitFilter params state) (fun batch => ∃ filterPuts filterHeaderPuts,
      batch = { state.batch with filterPuts, filterHeaderPuts }) := by
  apply Safe.intro
  · simp only [emitFilter]
    split
    · split <;> simp
    · simp
  · intro batch returned
    exact emitFilter_eq_ok returned

theorem emitSpRow_safe {before : StoreBatch} :
    Safe (emitSpRow env params state before)
      (fun after => ∃ puts, after = { before with spTweak.puts := puts }) := by
  apply Safe.intro
  · simp only [emitSpRow]
    split
    · split <;> simp
    · simp
  · intro batch returned
    exact emitSpRow_eq_ok returned

/-- The ledger of a finished block says what its batch does. -/
theorem Ledger.connected {minted firstTxseq : Nat} {indexed : StoreBatch}
    (ledger : Ledger params coins state 0 minted) (value : OneCoinbase params.block →
      minted ≤ blockSubsidy params.network params.height + state.totalFees)
    (last : firstTxseq + params.block.txdata.length ≤ txseqMax)
    (puts : indexed.coinPuts = state.batch.coinPuts)
    (removes : indexed.coinRemoves = state.batch.coinRemoves)
    (counts : indexed.chainTxPuts = state.batch.chainTxPuts) :
    Connected params coins (placeBlock env params firstTxseq state.undo indexed) := by
  have sameCoins : (placeBlock env params firstTxseq state.undo indexed).applyCoins coins =
      state.batch.applyCoins coins := by
    simp [StoreBatch.applyCoins, placeBlock, puts, removes]
  have sameRemoved : removedKeys (placeBlock env params firstTxseq state.undo indexed) =
      removedKeys state.batch := by
    simp [removedKeys, placeBlock, removes]
  have samePut : putKeys (placeBlock env params firstTxseq state.undo indexed) =
      putKeys state.batch := by
    simp only [putKeys, placeBlock, puts]
  constructor
  · intro single
    have bound := ledger.supply_le
    have within := value single
    rw [sameCoins]
    omega
  · intro outpoint coin found
    rw [sameCoins] at found
    rcases ledger.lookup_applyCoins found with stored | created
    · rw [lookup_removeAll] at stored
      split at stored
      · cases stored
      · exact .inl stored
    · exact .inr (ledger.height outpoint coin created)
  · rw [sameRemoved]
    exact ledger.distinct
  · rw [sameRemoved, samePut]
    exact ledger.sourced
  · intro row listed
    simp only [placeBlock, counts, ledger.counts, List.nil_append, List.mem_singleton] at listed
    rw [listed]
    exact last

/-- Connecting a block that is ready never panics, and its batch neither inflates
the coins nor spends one twice. -/
theorem connectBlock_safe (ready : Ready env params coins) :
    Safe (connectBlock env params) (Connected params coins) := by
  rw [connectBlock]
  apply Safe.andThen
  · apply Safe.onlyIf
    intro _
    exact (validated_safe).forget
  intro _
  apply (firstOrdinal_safe ready).bind
  intro firstTxseq inRange
  have fits : firstTxseq + params.block.txdata.length < 2 ^ 64 := by
    have length := ready.length
    have limit : txseqMax < 2 ^ 63 := by decide
    omega
  rw [env.build.add_of_lt fits, ok_bind]
  apply Safe.check
  intro passed
  have last : firstTxseq + params.block.txdata.length ≤ txseqMax := by simpa using passed
  apply preResolve_safe.bind
  intro preResolved resolves
  have setting : Setting params (blockContext env params firstTxseq preResolved) coins :=
    { ready with resolves := resolves }
  apply (connectTransactions_safe setting .initial rfl).bind
  rintro state ⟨ledger, checked⟩
  apply verifyScripts_safe.andThen
  intro _
  apply (checkCoinbaseValue_safe ledger ready.small checked).bind
  intro _ value
  apply emitFilter_safe.bind
  rintro filtered ⟨filterPuts, filterHeaderPuts, rfl⟩
  apply emitSpRow_safe.bind
  rintro indexed ⟨spPuts, rfl⟩
  rw [zero_add] at ledger
  exact ledger.connected value last rfl rfl rfl

end Whole

/-! ## Subsidies -/

/-- Intervals of one length, each with a value of its own. -/
theorem sum_range_div {value : Nat → Nat} {interval : Nat} (positive : 0 < interval)
    {intervals : Nat} :
    ∑ height ∈ Finset.range (intervals * interval), value (height / interval) =
      interval * ∑ index ∈ Finset.range intervals, value index := by
  induction intervals with
  | zero => simp
  | succ intervals ih =>
    have inside : ∀ offset ∈ Finset.range interval,
        value ((intervals * interval + offset) / interval) = value intervals := by
      intro offset small
      rw [mul_comm, Nat.mul_add_div positive,
        Nat.div_eq_of_lt (Finset.mem_range.mp small), add_zero]
    rw [Nat.succ_mul, sum_range_add, ih, sum_congr rfl inside, Finset.sum_range_succ, mul_add]
    simp

/-- The subsidy after a number of halvings. -/
def subsidyAfter (halvings : Nat) : Nat :=
  if 64 ≤ halvings then 0 else (50 * 100_000_000) >>> halvings

/-- No more than the money supply is ever subsidised. -/
theorem sum_blockSubsidy_le (network : Network) (heights : Nat) :
    ∑ height ∈ Finset.range heights, blockSubsidy network height ≤ maxMoney := by
  have positive : 0 < halvingInterval network := by cases network <;> decide
  have longest : halvingInterval network ≤ 210_000 := by cases network <;> decide
  have exhausted : ∑ index ∈ range heights, subsidyAfter (64 + index) = 0 := by
    apply Finset.sum_eq_zero
    intro index _
    simp [subsidyAfter]
  have halved : ∑ halvings ∈ range 64, subsidyAfter halvings ≤ 10_000_000_000 := by
    decide +kernel
  have enough : heights ≤ (64 + heights) * halvingInterval network := by
    calc heights ≤ 64 + heights := Nat.le_add_left _ _
      _ ≤ (64 + heights) * halvingInterval network := Nat.le_mul_of_pos_right _ positive
  calc ∑ height ∈ range heights, blockSubsidy network height
      ≤ ∑ height ∈ range ((64 + heights) * halvingInterval network),
          subsidyAfter (height / halvingInterval network) :=
        sum_le_sum_of_subset (range_mono enough)
    _ = halvingInterval network * ∑ halvings ∈ range (64 + heights),
          subsidyAfter halvings := sum_range_div positive
    _ = halvingInterval network * ∑ halvings ∈ range 64, subsidyAfter halvings := by
        rw [sum_range_add, exhausted, add_zero]
    _ ≤ 210_000 * 10_000_000_000 := Nat.mul_le_mul longest halved
    _ = maxMoney := by decide

/-! ## Chains -/

/-- The inputs of a connect at the end of a chain: the chain's store, its next
height, a block that is admitted and fits in memory, and an identifier for
every transaction. -/
structure Next (env : Env) (network : Network) (admits : Block → Prop) (height : Nat)
    (store : InMemoryStore) (params : ConnectParams) : Prop where
  store : params.store = store.reads
  height : params.height = height
  network : params.network = network
  admitted : admits params.block
  txids : (params.txids env).length = params.block.txdata.length
  length : params.block.txdata.length < 2 ^ 63

/-- Blocks connected one after another from an empty store, each batch written
before the next block, and the store they lead to. Identifiers that the caller
passes are the block's. -/
inductive ConnectedChain (env : Env) (network : Network) (admits : Block → Prop) :
    List Block → InMemoryStore → Prop where
  | empty : ConnectedChain env network admits [] {}
  | connect {blocks : List Block} {store : InMemoryStore} {params : ConnectParams}
      {batch : StoreBatch} (earlier : ConnectedChain env network admits blocks store)
      (next : Next env network admits blocks.length store params)
      (named : params.txids env = blockTxids env params.block)
      (connected : connectBlock env params = .ok batch) :
      ConnectedChain env network admits (blocks ++ [params.block]) (store.writeBatch batch)

/-- The outpoints that the inputs of a block name, coinbases apart. -/
def spentIn (block : Block) : List OutPoint :=
  (blockInputRefs 0 block.txdata).map InputRef.outpoint

/-- The outpoints of the spendable outputs of a block; the coinbase of the first
block is not among them. -/
def createdIn (env : Env) (height : Nat) (block : Block) : List OutPoint :=
  (blockOutputRefs env (block.txdata.zipIdx.filter fun tx =>
    !(height == 0) || !tx.1.isCoinbase)).map OutputRef.outpoint

/-- The outpoints the blocks of a chain consume, once for each input. -/
def consumed (blocks : List Block) : List OutPoint := blocks.flatMap spentIn

/-- The outpoints the blocks of a chain create, once for each output. -/
def created (env : Env) (blocks : List Block) : List OutPoint :=
  blocks.zipIdx.flatMap fun block => createdIn env block.2 block.1

/-- One if the store holds a coin for the outpoint, else zero. -/
def unspent (store : InMemoryStore) (outpoint : OutPoint) : Nat :=
  (store.getCoin outpoint).isSome.toNat

/-- What every store on a chain satisfies. -/
structure Sound (env : Env) (network : Network) (blocks : List Block) (store : InMemoryStore) :
    Prop where
  value : supply store.coins ≤ ∑ height ∈ Finset.range blocks.length, blockSubsidy network height
  heights : ∀ outpoint coin, store.coins.lookup outpoint = some coin → coin.height ≤ blocks.length
  counts : ∀ parent count, store.chainTx.lookup parent = some count → count ≤ txseqMax
  spends : ∀ outpoint, (consumed blocks).count outpoint + unspent store outpoint ≤
    (created env blocks).count outpoint

section Chains

variable {env : Env} {network : Network} {admits : Block → Prop} {blocks : List Block}
  {store : InMemoryStore} {params : ConnectParams} {batch : StoreBatch}

theorem Sound.initial : Sound env network [] {} := by
  constructor <;> simp [supply, consumed, created, unspent, InMemoryStore.getCoin]

/-- On a sound store every next block is ready to be connected, in any build. -/
theorem Sound.ready (sound : Sound env network blocks store)
    (next : Next env network admits blocks.length store params) (build : Build) :
    Ready { env with build } params store.coins := by
  constructor
  · intro outpoint
    rw [next.store]
    rfl
  · have value := sound.value
    have bound := sum_blockSubsidy_le network blocks.length
    have limit : maxMoney < 2 ^ 63 := by decide
    omega
  · rw [next.height]
    exact sound.heights
  · intro parent count found
    rw [next.store] at found
    exact sound.counts parent count found
  · exact next.txids
  · exact next.length

/-- A block that consumes each outpoint at most once, and only coins that are
there or its own, keeps the number of spends below that of creations. -/
theorem Connected.spends (connected : Connected params store.coins batch) (outpoint : OutPoint) :
    (removedKeys batch).count outpoint + unspent (store.writeBatch batch) outpoint ≤
      (putKeys batch).count outpoint + unspent store outpoint := by
  have lookup : (store.writeBatch batch).getCoin outpoint =
      if outpoint ∈ removedKeys batch then none
      else (lastPut outpoint batch.coinPuts).or (store.coins.lookup outpoint) :=
    batch.lookup_applyCoins store.coins outpoint
  rw [unspent, unspent, lookup]
  by_cases removed : outpoint ∈ removedKeys batch
  · have once : (removedKeys batch).count outpoint = 1 :=
      List.count_eq_one_of_mem connected.distinct removed
    simp only [removed, if_true, once, isSome_none, Bool.toNat_false]
    rcases connected.sourced outpoint removed with stored | put
    · obtain ⟨coin, found⟩ := Finmap.mem_iff.mp stored
      simp [InMemoryStore.getCoin, found]
    · have positive := List.count_pos_iff.mpr put
      omega
  · have never : (removedKeys batch).count outpoint = 0 := List.count_eq_zero.mpr removed
    simp only [removed, if_false, never]
    cases put : lastPut outpoint batch.coinPuts with
    | none => simp [InMemoryStore.getCoin]
    | some coin =>
      have positive : 0 < (putKeys batch).count outpoint :=
        List.count_pos_iff.mpr (List.mem_map_of_mem (mem_of_lastPut put))
      simp only [some_or, isSome_some, Bool.toNat_true]
      omega

/-- The batch of a connected block removes what the inputs name and puts what the
outputs create, each as often as it occurs in the block. -/
theorem connectBlock_moves (named : params.txids env = blockTxids env params.block)
    (connected : connectBlock env params = .ok batch) :
    removedKeys batch = spentIn params.block ∧
      putKeys batch = createdIn env params.height params.block := by
  obtain ⟨firstTxseq, state, filterPuts, filterHeaderPuts, spPuts, -, effects, rfl⟩ :=
    connectBlock_effects named connected
  exact ⟨effects.removes, effects.puts⟩

/-- Connecting a block with one coinbase keeps a store sound. -/
theorem Sound.connect (sound : Sound env network blocks store)
    (next : Next env network OneCoinbase blocks.length store params)
    (moves : removedKeys batch = spentIn params.block ∧
      putKeys batch = createdIn env params.height params.block)
    (connected : Connected params store.coins batch) :
    Sound env network (blocks ++ [params.block]) (store.writeBatch batch) := by
  constructor
  · have before := sound.value
    have added := connected.value next.admitted
    rw [next.network, next.height] at added
    rw [List.length_append, List.length_singleton, Finset.sum_range_succ]
    exact Nat.le_trans added (Nat.add_le_add_right before _)
  · intro outpoint coin found
    rw [List.length_append, List.length_singleton]
    rcases connected.height outpoint coin found with stored | fresh
    · exact Nat.le_succ_of_le (sound.heights outpoint coin stored)
    · rw [fresh, next.height]
      exact Nat.le_succ _
  · intro parent count found
    have row : (putAll store.chainTx batch.chainTxPuts).lookup parent = some count := found
    rw [lookup_putAll] at row
    rcases or_eq_some_iff.mp row with put | ⟨-, stored⟩
    · exact connected.counts (parent, count) (mem_of_lastPut put)
    · exact sound.counts parent count stored
  · intro outpoint
    have before := sound.spends outpoint
    have block := connected.spends outpoint
    rw [moves.1, moves.2, next.height] at block
    simp only [consumed, created, List.zipIdx_append, List.zipIdx_singleton, List.flatMap_append,
      List.flatMap_singleton, List.count_append, zero_add] at before ⊢
    omega

/-- Every store on a chain of blocks with one coinbase is sound. -/
theorem ConnectedChain.sound (chain : ConnectedChain env network OneCoinbase blocks store) :
    Sound env network blocks store := by
  induction chain with
  | empty => exact .initial
  | connect earlier next named connected ih =>
    have ready := ih.ready next env.build
    exact ih.connect next (connectBlock_moves named connected)
      ((connectBlock_safe ready).of_eq_ok connected)

/-- On every chain of blocks with one coinbase the coins are worth at most the
subsidies, the inputs of the blocks name no outpoint more often than their
outputs created it, once less if it is still unspent, and connecting the next
block overflows nowhere: it does not panic in a build with overflow checks
either. The induction is over the chain; the ledger of a block gives each step. -/
theorem chain_conserves (chain : ConnectedChain env network OneCoinbase blocks store) :
    supply store.coins ≤ ∑ height ∈ Finset.range blocks.length, blockSubsidy network height ∧
    (∀ outpoint, (consumed blocks).count outpoint + unspent store outpoint ≤
      (created env blocks).count outpoint) ∧
    ∀ (build : Build) (params : ConnectParams),
      Next env network OneCoinbase blocks.length store params →
        connectBlock { env with build } params ≠ .panic := by
  refine ⟨chain.sound.value, chain.sound.spends, ?_⟩
  intro build params next
  exact (connectBlock_safe (chain.sound.ready next build)).ne_panic

end Chains

/-! ## A chain on the regression-test network -/

namespace Regtest

/-- Bytes written as one number, the first byte first. -/
def bytes (length number : Nat) : Consensus.Bytes := (Wire.leBytes length number).reverse

def coinbase (scriptSig : Consensus.Bytes) (version : UInt32) (output : TxOut) : Transaction :=
  ⟨version, 0, [⟨OutPoint.null, scriptSig, 0xFFFFFFFF, []⟩], [output]⟩

def genesisScriptSig : Consensus.Bytes :=
  bytes 40 0x04ffff001d0104455468652054696d65732030332f4a616e2f32303039204368616e63656c6c6f72 ++
    bytes 37 0x206f6e206272696e6b206f66207365636f6e64206261696c6f757420666f722062616e6b73

def genesisScriptPubkey : Consensus.Bytes :=
  bytes 40 0x4104678afdb0fe5548271967f1a67130b7105cd6a828e03909a67962e0ea1f61deb649f6bc3f4cef ++
    bytes 27 0x38c4f35504e51ec112de5c384df7ba0b8d578a4c702b6bf11d5fac

def genesisTx : Transaction := coinbase genesisScriptSig 1 ⟨5_000_000_000, genesisScriptPubkey⟩

def genesisTxid : Txid :=
  Hash256.ofDisplay 0x4a5e1e4baab89f3a32518a88c31bc87f618f76673e2cc77ab2127b7afdeda33b

def genesisHash : BlockHash :=
  Hash256.ofDisplay 0x0f9188f13cb7b2c71f2a335e3a4fc328bf5beb436012afca590b1a11466e2206

def genesis : Block :=
  ⟨⟨1, Hash256.repeated 0, genesisTxid, 1_296_688_602, 0x207fffff, 2⟩, [genesisTx]⟩

def firstTx : Transaction := coinbase [0x51, 0x00] 2 ⟨5_000_000_000, [0x51]⟩

def firstTxid : Txid :=
  Hash256.ofDisplay 0xb7892f76d1b3b327b8a0351123c5747c2b706384a45af28deac7b06edb506127

/-- A second coinbase that pays a thousand coins. -/
def extraTx : Transaction := coinbase [0x51, 0x01] 2 ⟨100_000_000_000, [0x51]⟩

/-- A block with two coinbases after the genesis block. -/
def inflated : Block where
  header :=
    { version := 0x20000000
      prevBlockhash := genesisHash
      merkleRoot :=
        Hash256.ofDisplay 0x490f96fc029f71d7e8b4788b6d4cf101e33aca30a935240e150492c6abe0d04f
      time := 1_296_688_700
      bits := 0x207fffff
      nonce := 1 }
  txdata := [firstTx, extraTx]

/-- The hashes of the blocks' transactions and headers. -/
def hashing : Hashing where
  sha256 _ := Hash256.repeated 0
  sha256d bytes :=
    if bytes = genesisTx.encodeBase then genesisTxid
    else if bytes = genesis.header.encode then genesisHash
    else if bytes = firstTx.encodeBase then firstTxid
    else if bytes = extraTx.encodeBase then
      Hash256.ofDisplay 0x0d39daf38c1a63ce33428f8410f243fa60c206bc8cebf191240dbd4e9a4265b5
    else if bytes = inflated.header.encode then
      Hash256.ofDisplay 0x18f188626daf8c75173e454d0eba386b282c56fcd6e2289affc7ce47a4b5cb0a
    else Hash256.repeated 0

def env : Env where
  build := ⟨true⟩
  hashing := hashing

def params (store : InMemoryStore) (block : Block) (height : Nat) : ConnectParams where
  store := store.reads
  block := block
  height := height
  parentChainwork := 2 * height
  fileNumber := 0
  dataPos := 8
  verifyTransaction _ _ _ := .ok ()
  medianTimePast := if height = 0 then 0 else 1_296_688_602
  network := .regtest
  builders := ⟨fun _ _ _ => .error "off", fun _ _ _ _ => .ok none⟩

/-- Connect a block to what the blocks before it came to, with the number of these. -/
def connectOn (env : Env) (before : Option (Nat × InMemoryStore)) (block : Block) :
    Option (Nat × InMemoryStore) :=
  before.bind fun (height, store) =>
    match connectBlock env (params store block height) with
    | .ok batch => some (height + 1, store.writeBatch batch)
    | _ => none

/-- Blocks that are connected one after another are a chain. -/
theorem connectedChain_of_foldl {env : Env} {admits : Block → Prop} {blocks : List Block}
    {height : Nat} {store : InMemoryStore}
    (admitted : ∀ block ∈ blocks, admits block ∧ block.txdata.length < 2 ^ 63)
    (connected : blocks.foldl (connectOn env) (some (0, {})) = some (height, store)) :
    height = blocks.length ∧ ConnectedChain env .regtest admits blocks store := by
  induction blocks using List.reverseRecOn generalizing height store with
  | nil =>
    cases connected
    exact ⟨rfl, .empty⟩
  | append_singleton blocks block ih =>
    rw [List.foldl_concat, connectOn, bind_eq_some_iff] at connected
    obtain ⟨⟨below, before⟩, earlier, connected⟩ := connected
    obtain ⟨rfl, chain⟩ := ih (fun other member => admitted other (by simp [member])) earlier
    dsimp only at connected
    split at connected
    · next batch returned =>
      cases connected
      obtain ⟨admitted, length⟩ := admitted block (by simp)
      have next : Next env .regtest admits blocks.length before
          (params before block blocks.length) :=
        ⟨rfl, rfl, rfl, admitted, by simp [params, ConnectParams.txids], length⟩
      exact ⟨by simp, .connect chain next rfl returned⟩
    · cases connected

/-- A stand-in for the hash that tells transactions apart by their lock times and
headers by their nonces. -/
def lastWord : Env where
  build := ⟨true⟩
  hashing := ⟨fun _ => Hash256.repeated 0,
    fun bytes => Hash256.ofDisplay (Wire.leNat (bytes.drop (bytes.length - 4)))⟩

/-- The coin of the first block is spent a hundred blocks later, for a fee. -/
def spendTx : Transaction :=
  ⟨1, 1000, [⟨⟨Hash256.ofDisplay 1, 0⟩, [], 0xFFFFFFFF, []⟩], [⟨4_000_000_000, [0x51]⟩]⟩

/-- The block at a height, with a coinbase that claims the subsidy and the fee. -/
def blockAt (height : Nat) : Block where
  header := ⟨0x20000000, Hash256.ofDisplay (height - 1), Hash256.repeated 0, 1_296_688_700,
    0x207fffff, UInt32.ofNat height⟩
  txdata := ⟨1, UInt32.ofNat height, [⟨OutPoint.null,
    [UInt8.ofNat (if height ≤ 16 then 0x50 + height else 1), UInt8.ofNat height], 0xFFFFFFFF, []⟩],
    [⟨if height = 101 then 6_000_000_000 else 5_000_000_000,
      [if 1 < height ∧ height < 101 then 0x6a else 0x51]⟩]⟩ ::
      if height = 101 then [spendTx] else []

end Regtest

open Regtest

/-- On a chain of 102 blocks, in the last of which the coin of the first is spent
for a fee, all that is conserved can be seen. -/
theorem chain_conserves_regtest :
    ∃ store, supply store.coins ≤ ∑ height ∈ Finset.range 102, blockSubsidy .regtest height ∧
      ⟨Hash256.ofDisplay 1, 0⟩ ∈ consumed ((List.range 102).map blockAt) ∧
      (∀ outpoint, (consumed ((List.range 102).map blockAt)).count outpoint +
        unspent store outpoint ≤
          (created lastWord ((List.range 102).map blockAt)).count outpoint) ∧
      ∀ build params, Next lastWord .regtest OneCoinbase 102 store params →
        connectBlock { lastWord with build } params ≠ .panic := by
  obtain ⟨⟨height, store⟩, connected⟩ := isSome_iff_exists.mp (by decide +kernel :
    (((List.range 102).map blockAt).foldl (connectOn lastWord) (some (0, {}))).isSome = true)
  have admitted : ∀ block ∈ (List.range 102).map blockAt,
      OneCoinbase block ∧ block.txdata.length < 2 ^ 63 := by
    decide +kernel
  obtain ⟨value, spends, safe⟩ := chain_conserves (connectedChain_of_foldl admitted connected).2
  exact ⟨store, value, by decide +kernel, spends, safe⟩

/-- A block with a second coinbase is connected and inflates the coins, with the
overwrite rule enforced. -/
theorem second_coinbase_inflates :
    ∃ before store, ConnectedChain env .regtest (fun _ => True) [genesis] before ∧
      enforcesBip30 env (params before inflated 1) = true ∧
      ConnectedChain env .regtest (fun _ => True) [genesis, inflated] store ∧
      ∑ height ∈ Finset.range 2, blockSubsidy .regtest height < supply store.coins := by
  have admitted : ∀ block ∈ [genesis, inflated], True ∧ block.txdata.length < 2 ^ 63 := by
    decide
  obtain ⟨⟨_, before⟩, first, enforced⟩ := (any_eq_true _ _).mp (by decide +kernel :
    ([genesis].foldl (connectOn env) (some (0, {}))).any
      (fun result => enforcesBip30 env (params result.2 inflated 1)) = true)
  obtain ⟨⟨_, store⟩, both, more⟩ := (any_eq_true _ _).mp (by decide +kernel :
    ([genesis, inflated].foldl (connectOn env) (some (0, {}))).any (fun result => decide
      (∑ height ∈ Finset.range 2, blockSubsidy .regtest height < supply result.2.coins)) = true)
  exact ⟨before, store,
    (connectedChain_of_foldl (fun block member => admitted block (by simp_all)) first).2, enforced,
    (connectedChain_of_foldl admitted both).2, of_decide_eq_true more⟩

end Satd.Chain
