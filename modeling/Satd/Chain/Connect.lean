import Satd.Chain.Rules
import Satd.Validation.Sigops

/-!
# Connecting a block

`connectBlock` checks a block against the store and builds the batch that adds
it to the chain. Inputs from outside the block are looked up before any
transaction is processed; each transaction then spends its inputs, is checked
for value and signature operations, and adds its outputs. Scripts are verified
at the end, by one thread or by several.

Additions and subtractions of amounts and heights are machine arithmetic, so an
overflow is visible as a panic in a build with overflow checks. The caller may
ask the connect to stop; a `PollSite` is a place where it is asked, and each is
passed at most once. Dispatching transactions to the shadow verifier has no
effect on the result and is left out, as are log lines and phase markers.
-/

namespace Satd.Chain

open Rust KeyedMap Satd.Bitcoin Satd.Storage Satd.Validation List Outcome
open Rust.Outcome (failWhen onlyIf bind_eq_ok)
open Satd.Consensus (Bytes)

def coinbaseMaturity : Nat := 100

def maxBlockSigopsCost : Nat := 80_000

def maxScriptSize : Nat := 10_000

/-- An output that can never be spent is never added to the coins. -/
def isUnspendable (script : Bytes) : Bool := isOpReturn script || maxScriptSize < script.length

/-- The places where a connect asks whether to stop. -/
inductive PollSite where
  | lookupChunk (position : Nat)
  | lookupsDone
  | verify (position : Nat)
  deriving DecidableEq, Repr

/-- The index rows that other packages build from a block and the scripts of the
outputs it spends. -/
structure IndexBuilders where
  filterRowPair : Block → Map OutPoint Bytes → Hash256 → Except String (Bytes × Hash256)
  spRow : Block → BlockHash → List Txid → Map OutPoint Bytes → Except String (Option Bytes)

/-- The inputs of a connect. -/
structure ConnectParams where
  store : Store
  block : Block
  height : Nat
  parentChainwork : Nat
  fileNumber : Nat
  dataPos : Nat
  verifyTransaction : Transaction → List TxOut → Nat → Except String Unit
  medianTimePast : Nat
  network : Network
  preVerifiedTxs : Option (List Nat) := none
  numThreads : Nat := 1
  precomputedTxids : Option (List Txid) := none
  scriptSkipTxs : Option (List Nat) := none
  addressIndex : Bool := false
  filterIndex : Bool := false
  spIndex : Bool := false
  builders : IndexBuilders
  replayPlan : Option (Nat → Option BlockHash) := none
  interrupt : Option (PollSite → Bool) := none

namespace ConnectParams

variable (params : ConnectParams)

def isGenesis : Bool := params.height == 0

/-- The caller asks to stop at this place. -/
def interrupted (site : PollSite) : Bool := params.interrupt.any fun stop => stop site

/-- The transaction identifiers: the caller's, or computed from the block. -/
def txids (env : Env) : List Txid :=
  params.precomputedTxids.getD (params.block.txdata.map (computeTxid env.hashing))

def wantPrevOutputScripts : Bool := params.filterIndex || params.spIndex

end ConnectParams

variable (env : Env)

/-- The identifiers of the block's transactions. -/
def blockTxids (block : Block) : List Txid := block.txdata.map (computeTxid env.hashing)

/-! ## Looking up inputs from outside the block -/

/-- The transaction, the input and the outpoint of every lookup to be made. -/
def externalLookups (block : Block) (blockTxids : List Txid) : List ((Nat × Nat) × OutPoint) :=
  block.txdata.zipIdx.flatMap fun (tx, txIdx) =>
    if tx.isCoinbase then []
    else (tx.input.zipIdx.filter fun (input, _) => input.previousOutput.txid ∉ blockTxids).map
      fun (input, inIdx) => ((txIdx, inIdx), input.previousOutput)

variable (params : ConnectParams)

/-- Look up every external input, in chunks when the caller may interrupt. -/
def preResolve (blockTxids : List Txid) : Connecting (Map (Nat × Nat) Coin) := do
  let lookups := externalLookups params.block blockTxids
  let chunks := (lookups.length + 1023) / 1024
  failWhen ((List.range chunks).any fun chunk => params.interrupted (.lookupChunk chunk))
    .interrupted
  failWhen (params.interrupted .lookupsDone) .interrupted
  pure (putAll ∅ (lookups.filterMap fun lookup =>
    (params.store.getCoin lookup.2).map fun coin => (lookup.1, coin)))

/-! ## Processing a transaction -/

/-- What the transaction loop carries from one transaction to the next. -/
structure ConnectState where
  totalFees : Nat := 0
  blockSigops : Nat := 0
  batch : StoreBatch := {}
  undo : List Coin := []
  verifyQueue : List (Transaction × List TxOut) := []
  intraBlockCoins : Map OutPoint Coin := ∅
  spentInBlock : Finset OutPoint := ∅
  prevOutputScripts : Map OutPoint Bytes := ∅

/-- What is fixed before the transaction loop. -/
structure BlockContext where
  txids : List Txid
  cutoff : Nat
  firstTxseq : Nat
  enforceBip30 : Bool
  preResolved : Map (Nat × Nat) Coin

/-- A coinbase output is spent only a hundred blocks later. -/
def checkMaturity (height : Nat) (coin : Coin) : Connecting PUnit :=
  onlyIf coin.coinbase do
    let age ← env.build.sub 32 height coin.height
    failWhen (age < coinbaseMaturity) .prematureCoinbaseSpend

/-- The input's relative lock, by median time or by height. -/
def checkSequenceLock (tx : Transaction) (input : TxIn) (coin : Coin) : Connecting PUnit :=
  let sequence := input.sequence
  onlyIf (bip113ActivationHeight env params.network ≤ params.height &&
      2 ≤ tx.version && sequence != 0xFFFFFFFF && sequence &&& 0x80000000 == 0)
    (if sequence &&& 0x00400000 != 0 then do
      let mtpCoin ← medianTimePastWithPlan params.store params.replayPlan (max coin.height 1)
      failWhen (params.medianTimePast - mtpCoin < (sequence &&& 0xffff).toNat * 512)
        .sequenceLockNotMet
    else do
      let depth ← env.build.sub 32 params.height coin.height
      failWhen (depth < (sequence &&& 0xffff).toNat) .sequenceLockNotMet)

/-- The ordinal of the transaction that created a coin, looked up when the coin
does not carry it. -/
def fundingTxseq (store : Store) (coin : Coin) (txid : Txid) : Option Nat :=
  if coin.txseq = txseqUnknown then store.getTxSeq txid else some coin.txseq

/-- The address and spend rows of one input. -/
def emitSpend (batch : StoreBatch) (txseq vin : Nat)
    (coin : Coin) (outpoint : OutPoint) : StoreBatch :=
  if params.addressIndex then
    match fundingTxseq params.store coin outpoint.txid with
    | some funding =>
      { batch with
        addrSpending.puts := batch.addrSpending.puts ++
          [⟨env.hashing.sha256 coin.scriptPubkey, txseq, UInt32.ofNat vin, funding, outpoint.vout⟩]
        spent.puts := batch.spent.puts ++ [((funding, outpoint.vout), (txseq, UInt32.ofNat vin))] }
    | none => batch
  else batch

/-- The state of a transaction whose inputs are being spent. -/
structure Spending where
  state : ConnectState
  sumInputs : Nat := 0
  prevOutputs : List TxOut := []

variable (context : BlockContext) (txIdx : Nat)

/-- The coin an input spends: looked up early, created earlier in the block, or
read from the store. -/
def findCoin (inIdx : Nat) (outpoint : OutPoint) (state : ConnectState) : Option Coin :=
  ((context.preResolved.lookup (txIdx, inIdx)).or (state.intraBlockCoins.lookup outpoint)).or
    (params.store.getCoin outpoint)

/-- Record that an input spends a coin. -/
def recordSpend (inIdx : Nat) (outpoint : OutPoint) (coin : Coin) (state : ConnectState) :
    ConnectState :=
  let removed := { state.batch with
    coinRemoves := state.batch.coinRemoves ++ [(outpoint, coin.amount, coin.height)] }
  { state with
    batch := emitSpend env params removed (context.firstTxseq + txIdx) inIdx coin outpoint
    undo := state.undo ++ [coin]
    -- The intra-block coin is taken out only when the early lookup had no answer.
    intraBlockCoins :=
      if (context.preResolved.lookup (txIdx, inIdx)).isSome then state.intraBlockCoins
      else state.intraBlockCoins.erase outpoint
    spentInBlock := insert outpoint state.spentInBlock
    prevOutputScripts :=
      if params.wantPrevOutputScripts then
        state.prevOutputScripts.insert outpoint coin.scriptPubkey
      else state.prevOutputScripts }

variable (tx : Transaction)

/-- Spend one input. -/
def spendInput (txIdx inIdx : Nat) (input : TxIn) (progress : Spending) : Connecting Spending := do
  let outpoint := input.previousOutput
  failWhen (outpoint ∈ progress.state.spentInBlock) (.missingOrSpentInput outpoint)
  let coin ← ofOption (.missingOrSpentInput outpoint)
    (findCoin params context txIdx inIdx outpoint progress.state)
  checkMaturity env params.height coin
  checkSequenceLock env params tx input coin
  let sumInputs ← env.build.add 64 progress.sumInputs coin.amount
  pure {
    state := recordSpend env params context txIdx inIdx outpoint coin progress.state
    sumInputs := sumInputs
    prevOutputs := progress.prevOutputs ++ [⟨UInt64.ofNat coin.amount, coin.scriptPubkey⟩] }

/-- Spend the inputs of a transaction in order. -/
def spendInputs (tx : Transaction) (txIdx : Nat) : Nat → List TxIn → Spending → Connecting Spending
  | _, [], progress => pure progress
  | inIdx, input :: rest, progress => do
    let progress ← spendInput env params context tx txIdx inIdx input progress
    spendInputs tx txIdx (inIdx + 1) rest progress

/-- The sum of a list of amounts. -/
def sumAmounts : Nat → List TxOut → Connecting Nat
  | total, [] => pure total
  | total, output :: rest => do
    let total ← env.build.add 64 total output.value.toNat
    sumAmounts total rest

/-- Count a transaction's signature operations towards the block limit. -/
def countSigops (prevOutputs : List TxOut) (state : ConnectState) : Connecting ConnectState := do
  let flags : SigOpFlags :=
    if (activationHeights env params.network).p2sh ≤ params.height then .p2shWitness else .legacy
  let cost ← transactionSigopCost tx prevOutputs flags
  let blockSigops := min (state.blockSigops + cost) (2 ^ 64 - 1)
  failWhen (maxBlockSigopsCost < blockSigops) .badBlockSigops
  pure { state with blockSigops }

/-- Queue a transaction for script verification. A pre-verified transaction goes
to the shadow engine only, a stripped one nowhere. -/
def enqueue (txIdx : Nat) (prevOutputs : List TxOut) (state : ConnectState) : ConnectState :=
  let skipped := params.scriptSkipTxs.any (·.contains txIdx) ||
    params.preVerifiedTxs.any (·.contains txIdx)
  { state with
    verifyQueue :=
      if skipped then state.verifyQueue else state.verifyQueue ++ [(tx, prevOutputs)] }

/-- Spend a transaction's inputs, check its value and its signature operations,
and queue it for script verification. -/
def spendTransaction (txIdx : Nat) (state : ConnectState) : Connecting ConnectState := do
  let spent ← spendInputs env params context tx txIdx 0 tx.input { state := state }
  let sumOutputs ← sumAmounts env 0 tx.output
  failWhen (spent.sumInputs < sumOutputs) .badAmounts
  let totalFees ← env.build.add 64 spent.state.totalFees (spent.sumInputs - sumOutputs)
  let counted ← countSigops env params tx spent.prevOutputs { spent.state with totalFees }
  pure (enqueue params tx txIdx spent.prevOutputs counted)

variable (txid : Txid)

/-- Add one output to the coins of the block, unless it can never be spent. -/
def addOutput (coinbase : Bool) (txseq : Nat) (vout : Nat) (output : TxOut) (state : ConnectState) :
    ConnectState :=
  if isUnspendable output.scriptPubkey then state
  else
    let outpoint : OutPoint := ⟨txid, UInt32.ofNat vout⟩
    let coin : Coin :=
      { amount := output.value.toNat, scriptPubkey := output.scriptPubkey,
        height := params.height, coinbase, txseq }
    { state with
      intraBlockCoins := state.intraBlockCoins.insert outpoint coin
      batch := { state.batch with
        coinPuts := state.batch.coinPuts ++ [(outpoint, coin)]
        addrFunding.puts :=
          if params.addressIndex then
            state.batch.addrFunding.puts ++
              [⟨env.hashing.sha256 output.scriptPubkey, txseq, UInt32.ofNat vout,
                output.value.toNat⟩]
          else state.batch.addrFunding.puts } }

/-- Add the outputs of a transaction in order. -/
def addOutputs (txid : Txid) (coinbase : Bool)
    (txseq : Nat) : Nat → List TxOut → ConnectState → ConnectState
  | _, [], state => state
  | vout, output :: rest, state =>
    addOutputs txid coinbase txseq (vout + 1) rest
      (addOutput env params txid coinbase txseq vout output state)

/-- Some output of the transaction would overwrite an unspent coin. -/
def overwritesUnspent (tx : Transaction) (state : ConnectState) : Bool :=
  (List.range tx.output.length).any fun vout =>
    let outpoint : OutPoint := ⟨txid, UInt32.ofNat vout⟩
    (state.intraBlockCoins.lookup outpoint).isSome || (params.store.getCoin outpoint).isSome

/-- Record the ordinal of a transaction, in both directions. -/
def recordOrdinal (txseq : Nat) (state : ConnectState) : ConnectState :=
  { state with
    batch := { state.batch with
      txLoc.puts := state.batch.txLoc.puts ++ [(txid, txseq)]
      txseqTxid.puts := state.batch.txseqTxid.puts ++ [(txseq, txid)] } }

/-- Process one transaction of the block. -/
def connectTransaction (tx : Transaction) (state : ConnectState) : Connecting ConnectState := do
  let txid ← index context.txids txIdx
  let txseq := context.firstTxseq + txIdx
  checkTransactionContext env tx params.height context.cutoff params.network
  let spent ← (if tx.isCoinbase then countSigops env params tx [] state
    else spendTransaction env params context tx txIdx state)
  -- The coinbase of the first block never enters the coins.
  let added := !params.isGenesis || !tx.isCoinbase
  failWhen (context.enforceBip30 && added && overwritesUnspent params txid tx spent) .badBip30
  let funded :=
    if added then addOutputs env params txid tx.isCoinbase txseq 0 tx.output spent else spent
  pure (recordOrdinal txid txseq funded)

/-- Process the transactions of the block in order. -/
def connectTransactions : Nat → List Transaction → ConnectState → Connecting ConnectState
  | _, [], state => pure state
  | txIdx, tx :: rest, state => do
    let state ← connectTransaction env params context txIdx tx state
    connectTransactions (txIdx + 1) rest state

/-! ## Verifying scripts -/

def interruptEvery : Nat := 64

/-- Verify queued transactions in order and stop at the first failure. -/
def verifySequential : Nat → List (Transaction × List TxOut) → Connecting PUnit
  | _, [] => pure PUnit.unit
  | position, (tx, prevOutputs) :: rest => do
    failWhen (position % interruptEvery == 0 && params.interrupted (.verify position)) .interrupted
    match params.verifyTransaction tx prevOutputs params.height with
    | .error reason => .err (.scriptFailed reason)
    | .ok () => verifySequential (position + 1) rest

/-- The errors one worker finds in its part of the queue. Each transaction comes
with its position in the whole queue. -/
def workerErrors : Nat → List ((Transaction × List TxOut) × Nat) → List ConnectError
  | _, [] => []
  | turn, ((tx, prevOutputs), position) :: rest =>
    if turn % interruptEvery == 0 && params.interrupted (.verify position) then [.interrupted]
    else
      match params.verifyTransaction tx prevOutputs params.height with
      | .error reason => .scriptFailed reason :: workerErrors (turn + 1) rest
      | .ok () => workerErrors (turn + 1) rest

variable (queue : List (Transaction × List TxOut))

/-- Verify queued transactions in equal parts by several workers. A failed
script outranks a worker that was asked to stop. -/
def verifyParallel : Connecting PUnit :=
  let chunkSize := (queue.length + params.numThreads - 1) / params.numThreads
  let errors := (queue.zipIdx.toChunks chunkSize).flatMap (workerErrors params 0)
  match (errors.find? (· ≠ .interrupted)).or errors.head? with
  | some error => .err error
  | none => .ok PUnit.unit

/-- Verify every queued transaction. -/
def verifyScripts : Connecting PUnit :=
  if queue.length ≤ 1 ∨ params.numThreads ≤ 1 then verifySequential params 0 queue
  else verifyParallel params queue

/-! ## The whole block -/

/-- The first transaction's outputs are worth at most the subsidy and the fees. -/
def checkCoinbaseValue (totalFees : Nat) : Connecting PUnit :=
  match params.block.txdata with
  | [] => pure PUnit.unit
  | first :: _ => onlyIf (!params.isGenesis) do
    let coinbaseValue ← sumAmounts env 0 first.output
    let maxCoinbase ← env.build.add 64 (blockSubsidy params.network params.height) totalFees
    failWhen (maxCoinbase < coinbaseValue) .badCoinbaseValue

/-- The key of a block's basic filter. -/
def basicFilterKey (height : Nat) : FilterKey := ⟨0, height⟩

/-- The filter header the block's own is chained to. -/
def prevFilterHeader : Hash256 :=
  if params.height = 0 then Hash256.repeated 0
  else (params.store.getFilterHeader (basicFilterKey (params.height - 1))).getD (Hash256.repeated 0)

variable (state : ConnectState)

/-- The block's compact filter and its chained header. -/
def emitFilter : Connecting StoreBatch :=
  let batch := state.batch
  if params.filterIndex then
    match params.builders.filterRowPair params.block state.prevOutputScripts
        (prevFilterHeader params) with
    | .error reason => .err (.filterIndexEmit reason)
    | .ok (filter, header) => .ok { batch with
        filterPuts := batch.filterPuts ++ [(basicFilterKey params.height, filter)]
        filterHeaderPuts := batch.filterHeaderPuts ++ [(basicFilterKey params.height, header)] }
  else .ok batch

/-- The first height that carries silent-payment rows. -/
def walkStart (network : Network) : Nat := max (activationHeights env network).taproot 1

/-- The block's silent-payment row. -/
def emitSpRow (batch : StoreBatch) : Connecting StoreBatch :=
  if params.spIndex ∧ walkStart env params.network ≤ params.height then
    match params.builders.spRow params.block (blockHash env.hashing params.block.header)
        (params.txids env) state.prevOutputScripts with
    | .error reason => .err (.spIndexEmit reason)
    | .ok (some row) =>
      .ok { batch with spTweak.puts := batch.spTweak.puts ++ [(params.height, row)] }
    | .ok none => .ok batch
  else .ok batch

/-- The ordinal the block's first transaction takes. -/
def firstOrdinal : Connecting Nat :=
  if params.isGenesis then pure 0
  else ofOption (.chainTxGap params.block.header.prevBlockhash)
    (params.store.getCumulativeTxCount params.block.header.prevBlockhash)

/-- No output of the block may overwrite an unspent coin. -/
def enforcesBip30 : Bool :=
  bip30Enforced params.network params.height
      (params.replayPlan.getD params.store.getBlockHashByHeight) &&
    !bip30Exempt params.network params.height (blockHash env.hashing params.block.header)

/-- The index entry of a connected block. -/
def blockEntry : BlockIndexEntry where
  header := params.block.header
  height := params.height
  status := .valid
  numTx := params.block.txdata.length % 2 ^ 32
  fileNumber := params.fileNumber
  dataPos := params.dataPos
  chainwork := addU256 params.parentChainwork (workForBits params.block.header.bits)

/-- The rows that place the block in the chain. -/
def placeBlock (firstTxseq : Nat) (undo : List Coin) (batch : StoreBatch) : StoreBatch :=
  let block := params.block
  let hash := blockHash env.hashing block.header
  { batch with
    blockIndexPuts := batch.blockIndexPuts ++ [(hash, blockEntry params)]
    tip := some hash
    heightHash.puts := batch.heightHash.puts ++ [(params.height, hash)]
    chainTxPuts := batch.chainTxPuts ++ [(hash, firstTxseq + block.txdata.length)]
    undoPuts := if params.isGenesis then batch.undoPuts else batch.undoPuts ++ [(hash, ⟨undo⟩)]
    txseqBlock.puts := batch.txseqBlock.puts ++ [(firstTxseq, params.height)] }

/-- Check a block and build the batch that connects it. -/
def connectBlock : Connecting StoreBatch := do
  let block := params.block
  onlyIf (!params.isGenesis) (validated
    (checkHeaderTimeAndVersion env block.header params.height params.medianTimePast params.network))
  let firstTxseq ← firstOrdinal params
  let lastTxseq ← env.build.add 64 firstTxseq block.txdata.length
  failWhen (txseqMax < lastTxseq) .txSeqOverflow
  let preResolved ← preResolve params (params.txids env)
  let context : BlockContext := {
    txids := params.txids env
    cutoff := lockTimeCutoff env params.height params.medianTimePast block.header.time.toNat
      params.network
    firstTxseq := firstTxseq
    enforceBip30 := enforcesBip30 env params
    preResolved := preResolved }
  let state ← connectTransactions env params context 0 block.txdata {}
  verifyScripts params state.verifyQueue
  checkCoinbaseValue env params state.totalFees
  let filtered ← emitFilter params state
  let indexed ← emitSpRow env params state filtered
  pure (placeBlock env params firstTxseq state.undo indexed)

/-! ## What each step does when it succeeds -/

section Inversion

variable {env : Env} {params : ConnectParams} {context : BlockContext} {tx : Transaction}
  {txIdx : Nat}

/-- The index rows of a spent coin touch two families of puts only. -/
theorem emitSpend_other (env : Env) (params : ConnectParams) (batch : StoreBatch)
    (txseq vin : Nat) (coin : Coin) (outpoint : OutPoint) :
    ∃ spendingPuts spentPuts, emitSpend env params batch txseq vin coin outpoint =
      { batch with addrSpending.puts := spendingPuts, spent.puts := spentPuts } := by
  unfold emitSpend
  split
  · split
    · exact ⟨_, _, rfl⟩
    · exact ⟨_, _, rfl⟩
  · exact ⟨_, _, rfl⟩

/-- A recorded spend adds one remove, no put and no transaction count. -/
theorem recordSpend_batch (env : Env) (params : ConnectParams) (context : BlockContext)
    (txIdx inIdx : Nat) (outpoint : OutPoint) (coin : Coin) (state : ConnectState) :
    (recordSpend env params context txIdx inIdx outpoint coin state).batch.coinRemoves =
        state.batch.coinRemoves ++ [(outpoint, coin.amount, coin.height)] ∧
      (recordSpend env params context txIdx inIdx outpoint coin state).batch.coinPuts =
        state.batch.coinPuts ∧
      (recordSpend env params context txIdx inIdx outpoint coin state).batch.chainTxPuts =
        state.batch.chainTxPuts := by
  obtain ⟨spendingPuts, spentPuts, other⟩ := emitSpend_other env params
    { state.batch with
      coinRemoves := state.batch.coinRemoves ++ [(outpoint, coin.amount, coin.height)] }
    (context.firstTxseq + txIdx) inIdx coin outpoint
  simp [recordSpend, other]

/-- Spending an input takes a coin that is there, mature and not yet spent. -/
theorem spendInput_eq_ok {inIdx : Nat} {input : TxIn} {before after : Spending}
    (returned : spendInput env params context tx txIdx inIdx input before = .ok after) :
    ∃ coin, input.previousOutput ∉ before.state.spentInBlock ∧
      findCoin params context txIdx inIdx input.previousOutput before.state = some coin ∧
      checkMaturity env params.height coin = .ok PUnit.unit ∧
      (env.build.add 64 before.sumInputs coin.amount : Connecting Nat) = .ok after.sumInputs ∧
      after.state =
        recordSpend env params context txIdx inIdx input.previousOutput coin before.state ∧
      after.prevOutputs.length = before.prevOutputs.length + 1 := by
  simp only [spendInput, bind_eq_ok, failWhen_eq_ok, ofOption_eq_ok, pure_eq, ok.injEq] at returned
  obtain ⟨_, unspent, coin, found, _, mature, _, -, sum, added, rfl⟩ := returned
  refine ⟨coin, ?_, found, mature, added, rfl, ?_⟩
  · simpa using unspent
  · simp

variable {after before state : ConnectState} {batch : StoreBatch}

theorem countSigops_eq_ok {prevOutputs : List TxOut}
    (returned : countSigops env params tx prevOutputs before = .ok after) :
    ∃ blockSigops, after = { before with blockSigops } := by
  simp only [countSigops, bind_eq_ok, pure_eq, ok.injEq] at returned
  obtain ⟨cost, -, _, -, rfl⟩ := returned
  exact ⟨_, rfl⟩

/-- A spending transaction pays for its outputs and adds the rest to the fees. -/
theorem spendTransaction_eq_ok
    (returned : spendTransaction env params context tx txIdx before = .ok after) :
    ∃ spent sumOutputs totalFees blockSigops,
      spendInputs env params context tx txIdx 0 tx.input { state := before } = .ok spent ∧
      sumAmounts env 0 tx.output = .ok sumOutputs ∧ sumOutputs ≤ spent.sumInputs ∧
      (env.build.add 64 spent.state.totalFees (spent.sumInputs - sumOutputs) : Connecting Nat) =
        .ok totalFees ∧
      after = enqueue params tx txIdx spent.prevOutputs
        { spent.state with totalFees, blockSigops } := by
  simp only [spendTransaction, bind_eq_ok, failWhen_eq_ok, pure_eq, ok.injEq] at returned
  obtain ⟨spent, spentOk, sumOutputs, sumOk, _, enough, totalFees, feesOk, counted, countOk, rfl⟩ :=
    returned
  obtain ⟨blockSigops, rfl⟩ := countSigops_eq_ok countOk
  have paid : sumOutputs ≤ spent.sumInputs := by simpa using enough
  exact ⟨spent, sumOutputs, totalFees, blockSigops, spentOk, sumOk, paid, feesOk, rfl⟩

/-- The transaction's outputs enter the coins. -/
def addsOutputs (params : ConnectParams) (tx : Transaction) : Bool :=
  !params.isGenesis || !tx.isCoinbase

/-- A processed transaction passed its checks, was spent or counted, and added
its outputs and ordinal. -/
theorem connectTransaction_eq_ok
    (returned : connectTransaction env params context txIdx tx before = .ok after) :
    ∃ txid spent, context.txids[txIdx]? = some txid ∧ checkTransaction tx = .ok () ∧
      ((tx.isCoinbase = true ∧ ∃ blockSigops, spent = { before with blockSigops }) ∨
        (tx.isCoinbase = false ∧ spendTransaction env params context tx txIdx before = .ok spent)) ∧
      (context.enforceBip30 && addsOutputs params tx &&
        overwritesUnspent params txid tx spent) = false ∧
      after = recordOrdinal txid (context.firstTxseq + txIdx)
        (if addsOutputs params tx then
          addOutputs env params txid tx.isCoinbase (context.firstTxseq + txIdx) 0 tx.output spent
        else spent) := by
  simp only [connectTransaction, checkTransactionContext, bind_eq_ok,
    failWhen_eq_ok, pure_eq, ok.injEq, index_eq_ok_iff,
    validated_eq_ok] at returned
  obtain ⟨txid, found, _, ⟨_, checked, _, -, -⟩, spent, spentOk, _, kept, rfl⟩ := returned
  refine ⟨txid, spent, found, checked, ?_, kept, rfl⟩
  cases coinbase : tx.isCoinbase with
  | true =>
    simp only [coinbase, if_true] at spentOk
    exact .inl ⟨rfl, countSigops_eq_ok spentOk⟩
  | false =>
    simp only [coinbase, Bool.false_eq_true, if_false] at spentOk
    exact .inr ⟨rfl, spentOk⟩

/-- The batch of a filter leaves all other rows alone. -/
theorem emitFilter_eq_ok (returned : emitFilter params state = .ok batch) :
    ∃ filterPuts filterHeaderPuts, batch = { state.batch with filterPuts, filterHeaderPuts } := by
  unfold emitFilter at returned
  split at returned
  · split at returned
    · cases returned
    · cases returned
      exact ⟨_, _, rfl⟩
  · cases returned
    exact ⟨_, _, rfl⟩

/-- The silent-payment row leaves all other rows alone. -/
theorem emitSpRow_eq_ok {before after : StoreBatch}
    (returned : emitSpRow env params state before = .ok after) :
    ∃ puts, after = { before with spTweak.puts := puts } := by
  unfold emitSpRow at returned
  split at returned
  · split at returned
    · cases returned
    · cases returned
      exact ⟨_, rfl⟩
    · cases returned
      exact ⟨_, rfl⟩
  · cases returned
    exact ⟨_, rfl⟩

/-- The context a connect builds before its transaction loop. -/
def blockContext (env : Env) (params : ConnectParams) (firstTxseq : Nat)
    (preResolved : Map (Nat × Nat) Coin) : BlockContext where
  txids := params.txids env
  cutoff := lockTimeCutoff env params.height params.medianTimePast
    params.block.header.time.toNat params.network
  firstTxseq := firstTxseq
  enforceBip30 := enforcesBip30 env params
  preResolved := preResolved

/-- A connected block ran its transactions from an empty state, and its batch is
theirs with the block's own rows added. -/
theorem connectBlock_eq_ok (returned : connectBlock env params = .ok batch) :
    ∃ firstTxseq preResolved state filterPuts filterHeaderPuts spPuts,
      firstOrdinal params = .ok firstTxseq ∧
      preResolve params (params.txids env) = .ok preResolved ∧
      connectTransactions env params (blockContext env params firstTxseq preResolved) 0
        params.block.txdata {} = .ok state ∧
      checkCoinbaseValue env params state.totalFees = .ok PUnit.unit ∧
      batch = placeBlock env params firstTxseq state.undo
        { state.batch with filterPuts, filterHeaderPuts, spTweak.puts := spPuts } := by
  simp only [connectBlock, bind_eq_ok, pure_eq, ok.injEq] at returned
  obtain ⟨_, -, firstTxseq, first, _, -, _, -, preResolved, resolved, state, ran, _, -, _, value,
    filtered, filterOk, indexed, spOk, rfl⟩ := returned
  obtain ⟨filterPuts, filterHeaderPuts, rfl⟩ := emitFilter_eq_ok filterOk
  obtain ⟨spPuts, rfl⟩ := emitSpRow_eq_ok spOk
  exact ⟨firstTxseq, preResolved, state, filterPuts, filterHeaderPuts, spPuts, first, resolved,
    ran, value, rfl⟩

/-- Every early lookup answers for the input it was made for, with the store's coin. -/
def Resolves (params : ConnectParams) (preResolved : Map (Nat × Nat) Coin) : Prop :=
  ∀ txIdx tx inIdx input coin, params.block.txdata[txIdx]? = some tx →
    tx.input[inIdx]? = some input → preResolved.lookup (txIdx, inIdx) = some coin →
      params.store.getCoin input.previousOutput = some coin

/-- The early lookups of a connect are the store's. -/
theorem preResolve_resolves {preResolved : Map (Nat × Nat) Coin} {blockTxids : List Txid}
    (returned : preResolve params blockTxids = .ok preResolved) : Resolves params preResolved := by
  intro txIdx tx inIdx input coin atTx atInput found
  simp only [preResolve, bind_eq_ok, pure_eq, ok.injEq] at returned
  obtain ⟨_, -, _, -, rfl⟩ := returned
  rw [lookup_putAll, Finmap.lookup_empty, Option.or_none] at found
  obtain ⟨⟨position, outpoint⟩, inLookups, resolved⟩ := mem_filterMap.mp (mem_of_lastPut found)
  obtain ⟨⟨other, index⟩, inBlock, inTx⟩ := mem_flatMap.mp inLookups
  simp only [Option.map_eq_some_iff, Prod.mk.injEq] at resolved
  obtain ⟨_, stored, rfl, rfl⟩ := resolved
  dsimp only at inTx
  split at inTx
  · cases inTx
  · obtain ⟨⟨named, place⟩, kept, same⟩ := mem_map.mp inTx
    obtain ⟨⟨rfl, rfl⟩, rfl⟩ := same
    have sameTx := mem_zipIdx_iff_getElem?.mp inBlock
    have sameInput := mem_zipIdx_iff_getElem?.mp (mem_filter.mp kept).1
    rw [atTx, Option.some.injEq] at sameTx
    subst sameTx
    rw [atInput, Option.some.injEq] at sameInput
    subst sameInput
    exact stored

end Inversion

theorem of_drop_eq_cons {α : Type} {items rest : List α} {item : α} {index : Nat}
    (remaining : items.drop index = item :: rest) :
    items[index]? = some item ∧ items.drop (index + 1) = rest := by
  rw [← List.head?_drop, ← List.tail_drop, remaining]
  exact ⟨rfl, rfl⟩

end Satd.Chain
