import Satd.Chain.Connect

/-!
# Disconnecting a block

`disconnectBlock` builds the batch that takes the tip block out of the chain: it
puts back the coins the block spent, from undo data recorded in connect order,
and removes the outputs and index rows the block created. Undo data that does
not match the block's inputs is an error.
-/

namespace Satd.Chain

open Rust KeyedMap Satd.Bitcoin Satd.Storage

/-- The undo data does not belong to the block. -/
inductive DisconnectError where
  | undoLengthMismatch (height expected actual : Nat)
  | undoExhausted (height txIdx vin cursor length : Nat)
  deriving DecidableEq, Repr

abbrev Disconnecting (α : Type) := Outcome DisconnectError α

/-- The inputs of a disconnect. -/
structure DisconnectParams where
  store : Store
  block : Block
  undo : UndoData
  blockHeight : Nat
  prevHash : BlockHash
  firstTxseq : Nat
  addressIndex : Bool := false
  filterIndex : Bool := false
  spIndex : Bool := false

/-- The number of inputs of the block that spend a coin. -/
def expectedUndoCount (block : Block) : Nat :=
  ((block.txdata.filter fun tx => !tx.isCoinbase).map fun tx => tx.input.length).sum

/-- A position in the undo data and the batch built so far. -/
structure Restoring where
  cursor : Nat := 0
  batch : StoreBatch := {}

variable (env : Env) (params : DisconnectParams)

/-- The remove of the address row that spending a coin wrote. -/
def spendingRemoveKey (txseq vin : Nat) (coin : Coin) : List AddrSpendingKey :=
  if params.addressIndex then
    [⟨env.hashing.sha256 coin.scriptPubkey, txseq, UInt32.ofNat vin⟩]
  else []

/-- The remove of the spend row that spending a coin wrote. -/
def spentRemoveKey (coin : Coin) (outpoint : OutPoint) : List SpentKey :=
  if params.addressIndex then
    ((fundingTxseq params.store coin outpoint.txid).map fun funding =>
      (funding, outpoint.vout)).toList
  else []

/-- Put back the coin of one input and remove the rows of its spending. -/
def restoreInput (txIdx vin : Nat) (input : TxIn)
    (restoring : Restoring) : Disconnecting Restoring := do
  let coin ← Outcome.ofOption
    (.undoExhausted params.blockHeight txIdx vin restoring.cursor params.undo.spentCoins.length)
    params.undo.spentCoins[restoring.cursor]?
  let batch := restoring.batch
  let outpoint := input.previousOutput
  pure {
    cursor := restoring.cursor + 1
    batch := { batch with
      addrSpending.removes := batch.addrSpending.removes ++
        spendingRemoveKey env params (params.firstTxseq + txIdx) vin coin
      spent.removes := batch.spent.removes ++ spentRemoveKey params coin outpoint
      coinPuts := batch.coinPuts ++ [(outpoint, coin)] } }

/-- Restore the inputs of one transaction in order. -/
def restoreInputs (txIdx : Nat) : Nat → List TxIn → Restoring → Disconnecting Restoring
  | _, [], restoring => pure restoring
  | vin, input :: rest, restoring => do
    let restoring ← restoreInput env params txIdx vin input restoring
    restoreInputs txIdx (vin + 1) rest restoring

/-- Restore the inputs of every transaction but coinbases, in block order. -/
def restoreTransactions : Nat → List Transaction → Restoring → Disconnecting Restoring
  | _, [], restoring => pure restoring
  | txIdx, tx :: rest, restoring => do
    let restoring ← (if tx.isCoinbase then pure restoring
      else restoreInputs env params txIdx 0 tx.input restoring)
    restoreTransactions (txIdx + 1) rest restoring

/-- Remove one output, unless it never entered the coins. -/
def removeOutput (txid : Txid) (txseq vout : Nat)
    (output : TxOut) (batch : StoreBatch) : StoreBatch :=
  if isUnspendable output.scriptPubkey then batch
  else
    let outpoint : OutPoint := ⟨txid, UInt32.ofNat vout⟩
    { batch with
      coinRemoves := batch.coinRemoves ++ [(outpoint, output.value.toNat, params.blockHeight)]
      addrFunding.removes :=
        if params.addressIndex then
          batch.addrFunding.removes ++
            [⟨env.hashing.sha256 output.scriptPubkey, txseq, UInt32.ofNat vout⟩]
        else batch.addrFunding.removes }

/-- Remove the outputs of one transaction in order. -/
def removeOutputs (txid : Txid) (txseq : Nat) : Nat → List TxOut → StoreBatch → StoreBatch
  | _, [], batch => batch
  | vout, output :: rest, batch =>
    removeOutputs txid txseq (vout + 1) rest (removeOutput env params txid txseq vout output batch)

/-- Remove the outputs and the ordinal rows of one transaction. -/
def removeTransaction (txIdx : Nat) (tx : Transaction) (batch : StoreBatch) : StoreBatch :=
  let txid := computeTxid env.hashing tx
  let txseq := params.firstTxseq + txIdx
  let removed := removeOutputs env params txid txseq 0 tx.output batch
  { removed with
    txLoc.removes := removed.txLoc.removes ++ [txid]
    txseqTxid.removes := removed.txseqTxid.removes ++ [txseq] }

/-- Remove the transactions of the block, the last one first. -/
def removeTransactions : List (Transaction × Nat) → StoreBatch → StoreBatch
  | [], batch => batch
  | (tx, txIdx) :: rest, batch =>
    removeTransactions rest (removeTransaction env params txIdx tx batch)

/-- Build the batch that disconnects a block. -/
def disconnectBlock : Disconnecting StoreBatch := do
  let block := params.block
  let expected := expectedUndoCount block
  Outcome.failWhen (params.undo.spentCoins.length != expected)
    (.undoLengthMismatch params.blockHeight expected params.undo.spentCoins.length)
  let restored ← restoreTransactions env params 0 block.txdata {}
  let batch := removeTransactions env params block.txdata.zipIdx.reverse restored.batch
  pure { batch with
    txseqBlock.removes := batch.txseqBlock.removes ++ [params.firstTxseq]
    tip := some params.prevHash
    heightHash.removes := batch.heightHash.removes ++ [params.blockHeight]
    filterRemoves :=
      if params.filterIndex then batch.filterRemoves ++ [basicFilterKey params.blockHeight]
      else batch.filterRemoves
    spTweak.removes :=
      if params.spIndex then batch.spTweak.removes ++ [params.blockHeight]
      else batch.spTweak.removes }

end Satd.Chain
