import Satd.Chain.Disconnect

/-!
# Connecting a block and disconnecting it again

The two batches are compared through the block's inputs and outputs, listed in
block order. `Effects` says what the transaction loop of a connect has put into
its batch, and is kept by every step of the loop. The batch of a disconnect is
computed from the same lists. Written one after the other, the two batches give
back the coins exactly; every other family is left as it was except under the
keys the block itself wrote.
-/

namespace Satd.Chain

open Rust KeyedMap Satd.Bitcoin Satd.Storage Satd.Validation List Bool Outcome

/-! ## The inputs and outputs of a block -/

/-- An input of the block, with its place. -/
structure InputRef where
  txIdx : Nat
  vin : Nat
  input : TxIn

/-- The coin an input names. -/
def InputRef.outpoint (ref : InputRef) : OutPoint := ref.input.previousOutput

/-- The inputs of one transaction, from a position on. -/
def inputRefs (txIdx : Nat) : Nat → List TxIn → List InputRef
  | _, [] => []
  | vin, input :: rest => ⟨txIdx, vin, input⟩ :: inputRefs txIdx (vin + 1) rest

/-- The spending inputs of a list of transactions, from a position on. -/
def blockInputRefs : Nat → List Transaction → List InputRef
  | _, [] => []
  | txIdx, tx :: rest =>
    (if tx.isCoinbase then [] else inputRefs txIdx 0 tx.input) ++ blockInputRefs (txIdx + 1) rest

/-- A spendable output of the block, with its place. -/
structure OutputRef where
  txid : Txid
  txIdx : Nat
  vout : Nat
  output : TxOut

def OutputRef.outpoint (ref : OutputRef) : OutPoint := ⟨ref.txid, UInt32.ofNat ref.vout⟩

/-- The spendable outputs of one transaction, from a position on. -/
def outputRefs (txid : Txid) (txIdx : Nat) : Nat → List TxOut → List OutputRef
  | _, [] => []
  | vout, output :: rest =>
    (if isUnspendable output.scriptPubkey then [] else [⟨txid, txIdx, vout, output⟩]) ++
      outputRefs txid txIdx (vout + 1) rest

/-- The spendable outputs of a list of numbered transactions. -/
def blockOutputRefs (env : Env) (txs : List (Transaction × Nat)) : List OutputRef :=
  txs.flatMap fun (tx, txIdx) => outputRefs (computeTxid env.hashing tx) txIdx 0 tx.output

theorem inputRefs_length (txIdx vin : Nat) (inputs : List TxIn) :
    (inputRefs txIdx vin inputs).length = inputs.length := by
  induction inputs generalizing vin with
  | nil => rfl
  | cons input rest ih => simp [inputRefs, ih]

/-- The undo data has one coin for each spending input. -/
theorem blockInputRefs_length {block : Block} {txIdx : Nat} :
    (blockInputRefs txIdx block.txdata).length = expectedUndoCount block := by
  obtain ⟨header, txdata⟩ := block
  simp only [expectedUndoCount]
  induction txdata generalizing txIdx with
  | nil => rfl
  | cons tx rest ih =>
    cases coinbase : tx.isCoinbase with
    | true => simp [blockInputRefs, coinbase, ih]
    | false => simp [blockInputRefs, coinbase, ih, inputRefs_length]

variable {txid : Txid} {txIdx vout firstTxseq vin : Nat} {batch : StoreBatch} {coin : Coin}
  {txs : List Transaction} {coins : List Coin}

variable {ref : OutputRef}

/-- Every output of a transaction carries the transaction's identifier. -/
theorem txid_of_mem_outputRefs {outputs : List TxOut}
    (member : ref ∈ outputRefs txid txIdx vout outputs) : ref.txid = txid := by
  induction outputs generalizing vout with
  | nil => cases member
  | cons output rest ih =>
    rw [outputRefs, mem_append] at member
    rcases member with here | later
    · split at here
      · cases here
      · rw [mem_singleton] at here
        rw [here]
    · exact ih later

/-- Every output of a block carries the identifier of one of its transactions. -/
theorem txid_of_mem_blockOutputRefs {env : Env} {block : Block}
    (member : ref ∈ blockOutputRefs env block.txdata.zipIdx) :
    ref.txid ∈ block.txdata.map (computeTxid env.hashing) := by
  obtain ⟨⟨tx, txIdx⟩, listed, inTx⟩ := mem_flatMap.mp member
  rw [txid_of_mem_outputRefs inTx]
  exact mem_map_of_mem (fst_mem_of_mem_zipIdx listed)

/-! ## Index keys -/

/-- The address row key of a spent coin. -/
def spendingKey (env : Env) (firstTxseq : Nat) (spend : InputRef × Coin) : AddrSpendingKey :=
  ⟨env.hashing.sha256 spend.2.scriptPubkey, firstTxseq + spend.1.txIdx, UInt32.ofNat spend.1.vin⟩

/-- The spend row key of a spent coin: the ordinal of the transaction that created it, as the store
tells it, and the coin's position there. -/
def spentKey (reads : Store) (spend : InputRef × Coin) : Option SpentKey :=
  (fundingTxseq reads spend.2 spend.1.outpoint.txid).map fun funding =>
    (funding, spend.1.outpoint.vout)

/-- The address row key of an output. -/
def fundingKey (env : Env) (firstTxseq : Nat) (ref : OutputRef) : AddrFundingKey :=
  ⟨env.hashing.sha256 ref.output.scriptPubkey, firstTxseq + ref.txIdx, UInt32.ofNat ref.vout⟩

/-- Keys of the address index, of which there are none when it is off. -/
def indexed {κ : Type} (enabled : Bool) (keys : List κ) : List κ := if enabled then keys else []

/-! ## What a connect writes -/

/-- The coin an input consumed was stored, or is an output of the block. -/
def Consumed (params : ConnectParams) (outputs : List OutputRef) (ref : InputRef) (coin : Coin) :
    Prop :=
  params.store.getCoin ref.outpoint = some coin ∨ ref.outpoint ∈ outputs.map OutputRef.outpoint

/-- What the transaction loop has written after consuming `refs`, adding `outputs` and numbering
`ordinals`. -/
structure Effects (env : Env) (params : ConnectParams) (firstTxseq : Nat)
    (outputs : List OutputRef) (refs : List InputRef) (ordinals : List (Txid × Nat))
    (state : ConnectState) : Prop where
  removes : state.batch.coinRemoves.map Prod.fst = refs.map InputRef.outpoint
  consumed : List.Forall₂ (Consumed params outputs) refs state.undo
  puts : state.batch.coinPuts.map Prod.fst = outputs.map OutputRef.outpoint
  intra : ∀ outpoint coin, state.intraBlockCoins.lookup outpoint = some coin →
    outpoint ∈ outputs.map OutputRef.outpoint
  funding : ∀ row ∈ state.batch.addrFunding.puts,
    params.addressIndex = true ∧ row.key ∈ outputs.map (fundingKey env firstTxseq)
  spending : ∀ row ∈ state.batch.addrSpending.puts,
    params.addressIndex = true ∧ row.key ∈ (refs.zip state.undo).map (spendingKey env firstTxseq)
  spent : ∀ row ∈ state.batch.spent.puts, params.addressIndex = true ∧
    ∃ spend ∈ refs.zip state.undo, ∃ funding,
      fundingTxseq params.store spend.2 spend.1.outpoint.txid = some funding ∧
        row.1 = (funding, spend.1.outpoint.vout)
  txLoc : state.batch.txLoc = ⟨ordinals, []⟩
  txseqTxid : state.batch.txseqTxid = ⟨ordinals.map Prod.swap, []⟩
  noRemoves : state.batch.spent.removes = [] ∧ state.batch.addrFunding.removes = [] ∧
    state.batch.addrSpending.removes = []
  unplaced : state.batch.heightHash = {} ∧ state.batch.txseqBlock = {} ∧
    state.batch.undoPuts = [] ∧ state.batch.blockIndexPuts = []

section ConnectEffects

variable {env : Env} {params : ConnectParams} {context : BlockContext}
  {outputs : List OutputRef} {refs : List InputRef} {ordinals : List (Txid × Nat)}

/-- Before the first transaction nothing is written. -/
theorem Effects.initial : Effects env params context.firstTxseq [] [] [] {} := by
  constructor <;> simp

variable {before after state : ConnectState} {txseq : Nat} {tx : Transaction}

variable {outpoint : OutPoint} {coinbase : Bool}

/-- A new address row has the key of the spent coin. -/
theorem mem_emitSpend_spending {row : AddrSpendingRow}
    (member : row ∈ (emitSpend env params batch txseq vin coin outpoint).addrSpending.puts) :
    row ∈ batch.addrSpending.puts ∨ params.addressIndex = true ∧
      row.key = ⟨env.hashing.sha256 coin.scriptPubkey, txseq, UInt32.ofNat vin⟩ := by
  unfold emitSpend at member
  split at member
  · next enabled =>
    split at member
    · rw [mem_append, mem_singleton] at member
      rcases member with older | rfl
      · exact .inl older
      · exact .inr ⟨enabled, rfl⟩
    · exact .inl member
  · exact .inl member

/-- A new spend row is keyed by the ordinal of the coin's transaction. -/
theorem mem_emitSpend_spent {row : SpentKey × SpentBy}
    (member : row ∈ (emitSpend env params batch txseq vin coin outpoint).spent.puts) :
    row ∈ batch.spent.puts ∨ params.addressIndex = true ∧ ∃ funding,
      fundingTxseq params.store coin outpoint.txid = some funding ∧
        row.1 = (funding, outpoint.vout) := by
  unfold emitSpend at member
  split at member
  · next enabled =>
    split at member
    · next funding found =>
      rw [mem_append, mem_singleton] at member
      rcases member with older | rfl
      · exact .inl older
      · exact .inr ⟨enabled, funding, found, rfl⟩
    · exact .inl member
  · exact .inl member

/-- Recording a spent coin extends the consumed inputs by one. -/
theorem Effects.recordSpend {ref : InputRef}
    (effects : Effects env params context.firstTxseq outputs refs ordinals state)
    (source : Consumed params outputs ref coin) :
    Effects env params context.firstTxseq outputs (refs ++ [ref]) ordinals
      (recordSpend env params context ref.txIdx ref.vin ref.outpoint coin state) := by
  have zipped : (refs ++ [ref]).zip (state.undo ++ [coin]) =
      refs.zip state.undo ++ [(ref, coin)] := by
    rw [zip_append effects.consumed.length_eq]
    rfl
  obtain ⟨spendingPuts, spentPuts, other⟩ := emitSpend_other env params
    { state.batch with
      coinRemoves := state.batch.coinRemoves ++ [(ref.outpoint, coin.amount, coin.height)] }
    (context.firstTxseq + ref.txIdx) ref.vin coin ref.outpoint
  constructor
  · simp [Chain.recordSpend, other, effects.removes]
  · exact rel_append effects.consumed (.cons source .nil)
  · simpa [Chain.recordSpend, other] using effects.puts
  · intro outpoint found held
    simp only [Chain.recordSpend] at held
    split at held
    · exact effects.intra outpoint found held
    · rw [lookup_erase] at held
      split at held
      · cases held
      · exact effects.intra outpoint found held
  · simpa [Chain.recordSpend, other] using effects.funding
  · intro row member
    simp only [Chain.recordSpend] at member ⊢
    rw [zipped, map_append, mem_append]
    rcases mem_emitSpend_spending member with older | ⟨enabled, key⟩
    · obtain ⟨enabled, listed⟩ := effects.spending row older
      exact ⟨enabled, .inl listed⟩
    · exact ⟨enabled, .inr (by simp [key, spendingKey])⟩
  · intro row member
    simp only [Chain.recordSpend] at member ⊢
    rw [zipped]
    rcases mem_emitSpend_spent member with older | ⟨enabled, funding, found, key⟩
    · obtain ⟨enabled, spend, listed, rest⟩ := effects.spent row older
      exact ⟨enabled, spend, mem_append_left _ listed, rest⟩
    · exact ⟨enabled, (ref, coin), by simp, funding, found, key⟩
  · simpa [Chain.recordSpend, other] using effects.txLoc
  · simpa [Chain.recordSpend, other] using effects.txseqTxid
  · simpa [Chain.recordSpend, other] using effects.noRemoves
  · simpa [Chain.recordSpend, other] using effects.unplaced

/-- A coin that is found was stored or created by the block. -/
theorem Effects.consumed_of_found (ref : InputRef)
    (effects : Effects env params context.firstTxseq outputs refs ordinals state)
    (resolves : Resolves params context.preResolved)
    (atTx : params.block.txdata[ref.txIdx]? = some tx)
    (atInput : tx.input[ref.vin]? = some ref.input)
    (found : findCoin params context ref.txIdx ref.vin ref.outpoint state = some coin) :
    Consumed params outputs ref coin := by
  rw [findCoin, Option.or_eq_some_iff, Option.or_eq_some_iff] at found
  rcases found with (early | ⟨-, created⟩) | ⟨-, stored⟩
  · exact .inl (resolves ref.txIdx tx ref.vin ref.input coin atTx atInput early)
  · exact .inr (effects.intra ref.outpoint coin created)
  · exact .inl stored

/-- Spending a transaction's inputs consumes them in order. -/
theorem Effects.spendInputs {inIdx : Nat} {inputs : List TxIn} {before after : Spending}
    (effects : Effects env params context.firstTxseq outputs refs ordinals before.state)
    (resolves : Resolves params context.preResolved) (atTx : params.block.txdata[txIdx]? = some tx)
    (remaining : tx.input.drop inIdx = inputs)
    (returned : spendInputs env params context tx txIdx inIdx inputs before = .ok after) :
    Effects env params context.firstTxseq outputs (refs ++ inputRefs txIdx inIdx inputs) ordinals
      after.state := by
  induction inputs generalizing inIdx before refs with
  | nil =>
    simp only [Chain.spendInputs, pure_eq, ok.injEq] at returned
    subst returned
    simpa [inputRefs] using effects
  | cons input rest ih =>
    rw [Chain.spendInputs] at returned
    obtain ⟨middle, stepped, ran⟩ := bind_eq_ok.mp returned
    obtain ⟨coin, -, found, -, -, recorded, -⟩ := spendInput_eq_ok stepped
    obtain ⟨atInput, tail⟩ := of_drop_eq_cons remaining
    have source := effects.consumed_of_found ⟨txIdx, inIdx, input⟩ resolves atTx atInput found
    have stepEffects := effects.recordSpend source
    have middleEffects : Effects env params context.firstTxseq outputs
        (refs ++ [⟨txIdx, inIdx, input⟩]) ordinals middle.state := by
      rw [recorded]
      exact stepEffects
    have done := ih middleEffects tail ran
    rwa [append_assoc] at done

/-- A spendable output joins the outputs of the block. -/
theorem Effects.addOutput {output : TxOut}
    (effects : Effects env params context.firstTxseq outputs refs ordinals state)
    (spendable : isUnspendable output.scriptPubkey = false) :
    Effects env params context.firstTxseq (outputs ++ [⟨txid, txIdx, vout, output⟩]) refs ordinals
      (addOutput env params txid coinbase (context.firstTxseq + txIdx) vout output state) := by
  have earlier : outputs ⊆ outputs ++ [⟨txid, txIdx, vout, output⟩] := subset_append_left _ _
  have last : ⟨txid, txIdx, vout, output⟩ ∈ outputs ++ [⟨txid, txIdx, vout, output⟩] :=
    mem_append_right _ (mem_singleton_self _)
  constructor
  · simpa [Chain.addOutput, spendable] using effects.removes
  · simp only [Chain.addOutput, spendable, false_eq_true, if_false]
    exact effects.consumed.imp fun _ _ => Or.imp_right (map_subset _ earlier ·)
  · simp [Chain.addOutput, spendable, effects.puts, OutputRef.outpoint]
  · intro outpoint found held
    simp only [Chain.addOutput, spendable, false_eq_true, if_false, lookup_insert] at held
    split at held
    · next same => exact same ▸ mem_map_of_mem last
    · exact map_subset _ earlier (effects.intra outpoint found held)
  · intro row inPuts
    simp only [Chain.addOutput, spendable, false_eq_true, if_false] at inPuts
    have older (member : row ∈ state.batch.addrFunding.puts) :=
      (effects.funding row member).imp_right (map_subset _ earlier ·)
    split at inPuts
    · next enabled =>
      rw [mem_append, mem_singleton] at inPuts
      rcases inPuts with member | rfl
      · exact older member
      · exact ⟨enabled, mem_map_of_mem last⟩
    · exact older inPuts
  · simpa [Chain.addOutput, spendable] using effects.spending
  · simpa [Chain.addOutput, spendable] using effects.spent
  · simpa [Chain.addOutput, spendable] using effects.txLoc
  · simpa [Chain.addOutput, spendable] using effects.txseqTxid
  · simpa [Chain.addOutput, spendable] using effects.noRemoves
  · simpa [Chain.addOutput, spendable] using effects.unplaced

/-- The spendable outputs of a transaction join the outputs of the block, in order. -/
theorem Effects.addOutputs {remaining : List TxOut}
    (effects : Effects env params context.firstTxseq outputs refs ordinals state) :
    Effects env params context.firstTxseq (outputs ++ outputRefs txid txIdx vout remaining) refs
      ordinals
      (addOutputs env params txid coinbase (context.firstTxseq + txIdx) vout remaining state) := by
  induction remaining generalizing vout outputs state with
  | nil => simpa [outputRefs, Chain.addOutputs] using effects
  | cons output rest ih =>
    rw [Chain.addOutputs, outputRefs]
    cases spendable : isUnspendable output.scriptPubkey with
    | true =>
      rw [Chain.addOutput, if_pos spendable]
      simpa using ih effects
    | false => simpa using ih (effects.addOutput spendable)

/-- Recording an ordinal extends the numbered transactions by one. -/
theorem Effects.recordOrdinal
    (effects : Effects env params firstTxseq outputs refs ordinals state) :
    Effects env params firstTxseq outputs refs (ordinals ++ [(txid, txseq)])
      (recordOrdinal txid txseq state) := by
  refine { effects with txLoc := ?_, txseqTxid := ?_ }
  · simp [Chain.recordOrdinal, effects.txLoc]
  · simp [Chain.recordOrdinal, effects.txseqTxid]

/-- The identifiers and ordinals of a list of transactions, from a position on. -/
def ordinalsFrom (env : Env) (firstTxseq : Nat) : Nat → List Transaction → List (Txid × Nat)
  | _, [] => []
  | txIdx, tx :: rest =>
    (computeTxid env.hashing tx, firstTxseq + txIdx) :: ordinalsFrom env firstTxseq (txIdx + 1) rest

section

variable (effects : Effects env params context.firstTxseq outputs refs ordinals before)
  (resolves : Resolves params context.preResolved)
include effects resolves

/-- One transaction consumes its inputs, adds its outputs and takes its ordinal. -/
theorem Effects.connectTransaction (atTx : params.block.txdata[txIdx]? = some tx)
    (txids : context.txids = params.block.txdata.map (computeTxid env.hashing))
    (returned : connectTransaction env params context txIdx tx before = .ok after) :
    Effects env params context.firstTxseq
      (outputs ++ blockOutputRefs env ([(tx, txIdx)].filter (addsOutputs params ·.1)))
      (refs ++ (if tx.isCoinbase then [] else inputRefs txIdx 0 tx.input))
      (ordinals ++ [(computeTxid env.hashing tx, context.firstTxseq + txIdx)]) after := by
  obtain ⟨txid, spent, atTxid, -, spending, -, rfl⟩ := connectTransaction_eq_ok returned
  have same : computeTxid env.hashing tx = txid := by
    rw [txids, getElem?_map, atTx] at atTxid
    exact Option.some.inj atTxid
  subst same
  have spentEffects : Effects env params context.firstTxseq outputs
      (refs ++ (if tx.isCoinbase then [] else inputRefs txIdx 0 tx.input)) ordinals spent := by
    rcases spending with ⟨coinbase, blockSigops, rfl⟩ | ⟨notCoinbase, spentOk⟩
    · rw [coinbase, if_pos rfl, append_nil]
      exact { effects with }
    · obtain ⟨progress, sumOutputs, totalFees, blockSigops, ran, -, -, -, rfl⟩ :=
        spendTransaction_eq_ok spentOk
      have done := effects.spendInputs resolves atTx rfl ran
      rw [notCoinbase, if_neg Bool.false_ne_true]
      exact { done with }
  apply Effects.recordOrdinal
  cases adds : addsOutputs params tx with
  | true => simpa [blockOutputRefs, adds] using spentEffects.addOutputs
  | false => simpa [blockOutputRefs, adds] using spentEffects

/-- The transaction loop consumes the block's inputs, adds its outputs and numbers its
transactions. -/
theorem Effects.connectTransactions (remaining : params.block.txdata.drop txIdx = txs)
    (txids : context.txids = params.block.txdata.map (computeTxid env.hashing))
    (returned : connectTransactions env params context txIdx txs before = .ok after) :
    Effects env params context.firstTxseq
      (outputs ++ blockOutputRefs env ((txs.zipIdx txIdx).filter (addsOutputs params ·.1)))
      (refs ++ blockInputRefs txIdx txs)
      (ordinals ++ ordinalsFrom env context.firstTxseq txIdx txs) after := by
  induction txs generalizing txIdx before outputs refs ordinals with
  | nil =>
    simp only [Chain.connectTransactions, pure_eq, ok.injEq] at returned
    subst returned
    simpa [blockInputRefs, blockOutputRefs, ordinalsFrom] using effects
  | cons tx rest ih =>
    rw [Chain.connectTransactions] at returned
    obtain ⟨middle, stepped, ran⟩ := bind_eq_ok.mp returned
    obtain ⟨atTx, tail⟩ := of_drop_eq_cons remaining
    have done := ih (effects.connectTransaction resolves atTx txids stepped) tail ran
    have both : blockOutputRefs env (((tx :: rest).zipIdx txIdx).filter (addsOutputs params ·.1)) =
        blockOutputRefs env ([(tx, txIdx)].filter (addsOutputs params ·.1)) ++
          blockOutputRefs env ((rest.zipIdx (txIdx + 1)).filter (addsOutputs params ·.1)) := by
      rw [blockOutputRefs, zipIdx_cons, ← singleton_append, filter_append, flatMap_append]
      rfl
    rw [both]
    simpa [blockInputRefs, ordinalsFrom, append_assoc] using done

end

end ConnectEffects

/-! ## What a disconnect writes -/

section DisconnectEffects

variable {env : Env} {params : DisconnectParams}

/-- The batch after restoring the given spends. -/
def restoredBatch (env : Env) (params : DisconnectParams) (batch : StoreBatch)
    (spends : List (InputRef × Coin)) : StoreBatch :=
  { batch with
    coinPuts := batch.coinPuts ++ spends.map fun spend => (spend.1.outpoint, spend.2)
    addrSpending.removes := batch.addrSpending.removes ++ spends.flatMap fun spend =>
      spendingRemoveKey env params (params.firstTxseq + spend.1.txIdx) spend.1.vin spend.2
    spent.removes := batch.spent.removes ++ spends.flatMap fun spend =>
      spentRemoveKey params spend.2 spend.1.outpoint }

theorem restoredBatch_append (batch : StoreBatch) (first second : List (InputRef × Coin)) :
    restoredBatch env params (restoredBatch env params batch first) second =
      restoredBatch env params batch (first ++ second) := by
  simp [restoredBatch]

variable {more : List Coin} {restoring : Restoring}

/-- With enough undo data the inputs of a transaction are restored in order. -/
theorem restoreInputs_eq_ok {inputs : List TxIn}
    (available : params.undo.spentCoins.drop restoring.cursor = coins ++ more)
    (aligned : inputs.length = coins.length) :
    restoreInputs env params txIdx vin inputs restoring = .ok
      { cursor := restoring.cursor + inputs.length
        batch := restoredBatch env params restoring.batch
          ((inputRefs txIdx vin inputs).zip coins) } := by
  induction inputs generalizing vin restoring coins with
  | nil => simp [restoreInputs, restoredBatch, inputRefs]
  | cons input rest ih =>
    cases coins with
    | nil => simp at aligned
    | cons coin coins =>
      obtain ⟨here, later⟩ := of_drop_eq_cons available
      have step : restoreInput env params txIdx vin input restoring = .ok
          { cursor := restoring.cursor + 1
            batch := restoredBatch env params restoring.batch [(⟨txIdx, vin, input⟩, coin)] } := by
        simp [restoreInput, here, ofOption, restoredBatch, InputRef.outpoint]
      rw [restoreInputs, step, Outcome.ok_bind,
        ih later (by simpa using aligned), restoredBatch_append]
      simp only [length_cons, inputRefs, zip_cons_cons, singleton_append]
      congr 2
      omega

/-- With one undo coin per input the inputs of the block are restored in order. -/
theorem restoreTransactions_eq_ok
    (available : params.undo.spentCoins.drop restoring.cursor = coins ++ more)
    (aligned : (blockInputRefs txIdx txs).length = coins.length) :
    ∃ cursor, restoreTransactions env params txIdx txs restoring = .ok
      { cursor
        batch := restoredBatch env params restoring.batch
          ((blockInputRefs txIdx txs).zip coins) } := by
  induction txs generalizing txIdx restoring coins with
  | nil =>
    exact ⟨restoring.cursor, by simp [restoreTransactions, restoredBatch, blockInputRefs]⟩
  | cons tx rest ih =>
    cases coinbase : tx.isCoinbase with
    | true =>
      simp only [blockInputRefs, coinbase, if_true, nil_append] at aligned ⊢
      obtain ⟨cursor, ran⟩ := ih available aligned
      exact ⟨cursor, by simp [restoreTransactions, coinbase, ran]⟩
    | false =>
      simp only [blockInputRefs, coinbase, false_eq_true, if_false, length_append,
        inputRefs_length] at aligned ⊢
      -- The undo coins of this transaction come first.
      obtain ⟨own, others, rfl, ownLength⟩ : ∃ own others,
          coins = own ++ others ∧ tx.input.length = own.length := by
        refine ⟨coins.take tx.input.length, coins.drop tx.input.length, ?_, ?_⟩
        · rw [take_append_drop]
        · rw [length_take]
          omega
      rw [length_append] at aligned
      have first : restoreInputs env params txIdx 0 tx.input restoring = .ok
          { cursor := restoring.cursor + tx.input.length
            batch := restoredBatch env params restoring.batch
              ((inputRefs txIdx 0 tx.input).zip own) } :=
        restoreInputs_eq_ok (by rw [available, append_assoc]) ownLength
      have later : params.undo.spentCoins.drop (restoring.cursor + tx.input.length) =
          others ++ more := by
        rw [← drop_drop, available, ownLength, append_assoc, drop_left]
      have zipped : (inputRefs txIdx 0 tx.input ++ blockInputRefs (txIdx + 1) rest).zip
          (own ++ others) = (inputRefs txIdx 0 tx.input).zip own ++
            (blockInputRefs (txIdx + 1) rest).zip others :=
        zip_append (by rw [inputRefs_length, ownLength])
      have othersLength : (blockInputRefs (txIdx + 1) rest).length = others.length := by
        omega
      obtain ⟨cursor, ran⟩ := @ih (txIdx + 1) others
        { cursor := restoring.cursor + tx.input.length
          batch := restoredBatch env params restoring.batch
            ((inputRefs txIdx 0 tx.input).zip own) } later othersLength
      refine ⟨cursor, ?_⟩
      rw [restoreTransactions, coinbase, if_neg Bool.false_ne_true, first, Outcome.ok_bind, ran,
        restoredBatch_append, zipped]

/-- The batch after removing the outputs and ordinals of numbered transactions. -/
def removedBatch (env : Env) (params : DisconnectParams) (batch : StoreBatch)
    (txs : List (Transaction × Nat)) : StoreBatch :=
  { batch with
    coinRemoves := batch.coinRemoves ++ (blockOutputRefs env txs).map fun ref =>
      (ref.outpoint, ref.output.value.toNat, params.blockHeight)
    addrFunding.removes := batch.addrFunding.removes ++
      if params.addressIndex then (blockOutputRefs env txs).map (fundingKey env params.firstTxseq)
      else []
    txLoc.removes := batch.txLoc.removes ++ txs.map fun tx => computeTxid env.hashing tx.1
    txseqTxid.removes := batch.txseqTxid.removes ++ txs.map fun tx => params.firstTxseq + tx.2 }

/-- Removing the outputs of a transaction names each spendable one. -/
theorem removeOutputs_eq (txid : Txid) (txIdx vout : Nat) (outputs : List TxOut)
    (batch : StoreBatch) :
    removeOutputs env params txid (params.firstTxseq + txIdx) vout outputs batch =
      { batch with
        coinRemoves := batch.coinRemoves ++ (outputRefs txid txIdx vout outputs).map fun ref =>
          (ref.outpoint, ref.output.value.toNat, params.blockHeight)
        addrFunding.removes := batch.addrFunding.removes ++
          if params.addressIndex then
            (outputRefs txid txIdx vout outputs).map (fundingKey env params.firstTxseq)
          else [] } := by
  induction outputs generalizing vout batch with
  | nil => simp [removeOutputs, outputRefs]
  | cons output rest ih =>
    rw [removeOutputs, ih]
    cases spendable : isUnspendable output.scriptPubkey with
    | true => simp [removeOutput, outputRefs, spendable]
    | false =>
      cases enabled : params.addressIndex with
      | true => simp [removeOutput, outputRefs, spendable, enabled, OutputRef.outpoint, fundingKey]
      | false => simp [removeOutput, outputRefs, spendable, enabled, OutputRef.outpoint]

/-- Removing transactions names their outputs, identifiers and ordinals. -/
theorem removeTransactions_eq (txs : List (Transaction × Nat)) (batch : StoreBatch) :
    removeTransactions env params txs batch = removedBatch env params batch txs := by
  induction txs generalizing batch with
  | nil => simp [removeTransactions, removedBatch, blockOutputRefs]
  | cons tx rest ih =>
    rw [removeTransactions, ih, removeTransaction, removeOutputs_eq]
    cases enabled : params.addressIndex with
    | true => simp [removedBatch, blockOutputRefs, enabled]
    | false => simp [removedBatch, blockOutputRefs, enabled]

/-- The batch of a disconnect that restores the given coins. -/
def disconnectedBatch (env : Env) (params : DisconnectParams) (coins : List Coin) : StoreBatch :=
  { removedBatch env params
      (restoredBatch env params {} ((blockInputRefs 0 params.block.txdata).zip coins))
      params.block.txdata.zipIdx.reverse with
    txseqBlock.removes := [params.firstTxseq]
    tip := some params.prevHash
    heightHash.removes := [params.blockHeight]
    filterRemoves := if params.filterIndex then [basicFilterKey params.blockHeight] else []
    spTweak.removes := if params.spIndex then [params.blockHeight] else [] }

/-- A block with its own undo data is disconnected: its spends are restored, its
outputs and rows removed, and the tip moved to the parent. -/
theorem disconnectBlock_eq_ok (undo : params.undo = ⟨coins⟩)
    (aligned : (blockInputRefs 0 params.block.txdata).length = coins.length) :
    disconnectBlock env params = .ok (disconnectedBatch env params coins) := by
  have count : (params.undo.spentCoins.length != expectedUndoCount params.block) = false := by
    rw [undo, ← blockInputRefs_length, aligned]
    simp
  have available : params.undo.spentCoins.drop ({} : Restoring).cursor = coins ++ [] := by
    rw [undo]
    simp
  have restored : ∃ cursor, restoreTransactions env params 0 params.block.txdata {} = .ok
      { cursor
        batch := restoredBatch env params {} ((blockInputRefs 0 params.block.txdata).zip coins) } :=
    restoreTransactions_eq_ok available aligned
  obtain ⟨cursor, ran⟩ := restored
  simp only [disconnectBlock, count, failWhen_false, Outcome.ok_bind, ran, removeTransactions_eq]
  rfl

end DisconnectEffects

/-! ## The two batches together -/

section RoundTrip

variable {env : Env} {params : ConnectParams} {store : InMemoryStore}

/-- The disconnect of a block just connected, with the undo data and the first
ordinal its batch recorded. -/
def undoing (params : ConnectParams) (store : InMemoryStore) (batch : StoreBatch)
    (undo : UndoData) (firstTxseq : Nat) : DisconnectParams where
  store := (store.writeBatch batch).reads
  block := params.block
  undo := undo
  blockHeight := params.height
  prevHash := params.block.header.prevBlockhash
  firstTxseq := firstTxseq
  addressIndex := params.addressIndex
  filterIndex := params.filterIndex
  spIndex := params.spIndex

/-- No transaction of the block has the identifier of a stored coin or of a
located transaction. -/
structure NewTxids (env : Env) (block : Block) (store : InMemoryStore) : Prop where
  coins : ∀ outpoint coin, store.coins.lookup outpoint = some coin →
    outpoint.txid ∉ blockTxids env block
  located : ∀ txid ∈ blockTxids env block, store.txLoc.lookup txid = none

/-- The rows of a store after a block was connected and disconnected. The keys whose rows are gone
are named by the block, its first ordinal and the coins its inputs spent: its height, its
ordinals, the keys of its inputs and the keys of its outputs. The ordinals of the spent coins are
those the store with the block connected has. -/
structure Reverted (env : Env) (params : ConnectParams) (firstTxseq : Nat) (undo : UndoData)
    (connected before after : InMemoryStore) : Prop where
  coins : after.coins = before.coins
  txLoc : after.txLoc = before.txLoc
  tip : after.tip = some params.block.header.prevBlockhash
  heightIndex : after.heightIndex = before.heightIndex.erase params.height
  txseqBlock : after.txseqBlock = before.txseqBlock.erase firstTxseq
  txseqTxid : after.txseqTxid =
    removeAll before.txseqTxid (List.range' firstTxseq params.block.txdata.length)
  spent : after.spent = removeAll before.spent (indexed params.addressIndex
    (((blockInputRefs 0 params.block.txdata).zip undo.spentCoins).filterMap
      (spentKey connected.reads)))
  addrFunding : after.addrFunding = before.addrFunding.filter fun row => row.key ∉
    indexed params.addressIndex
      ((blockOutputRefs env params.block.txdata.zipIdx).map (fundingKey env firstTxseq))
  addrSpending : after.addrSpending = before.addrSpending.filter fun row => row.key ∉
    indexed params.addressIndex
      (((blockInputRefs 0 params.block.txdata).zip undo.spentCoins).map
        (spendingKey env firstTxseq))

/-- Rows that are appended and all removed again leave the other rows. -/
theorem RowWrites.apply_removes_apply_puts {κ ρ : Type} [DecidableEq κ] (key : ρ → κ)
    (rows : List ρ) {puts : List ρ} {removes : List κ}
    (covered : ∀ row ∈ puts, key row ∈ removes) :
    RowWrites.apply ⟨[], removes⟩ key (RowWrites.apply ⟨puts, []⟩ key rows) =
      rows.filter fun row => key row ∉ removes := by
  have gone : puts.filter (fun row => key row ∉ removes) = [] := by
    apply filter_eq_nil_iff.mpr
    intro row member
    simpa using covered row member
  simp only [RowWrites.apply, append_nil, filter_append, not_mem_nil,
    not_false_eq_true, decide_true, filter_true, gone]

/-- A spent coin's ordinal is found in the same way before and after the connect. -/
theorem fundingTxseq_writeBatch (fresh : NewTxids env params.block store)
    {ordinals : List (Txid × Nat)} (located : batch.txLoc = ⟨ordinals, []⟩)
    (numbered : ∀ row ∈ ordinals, row.1 ∈ blockTxids env params.block) {funding : Nat}
    (found : fundingTxseq store.reads coin txid = some funding) :
    fundingTxseq (store.writeBatch batch).reads coin txid = some funding := by
  unfold fundingTxseq at found ⊢
  split
  · next unknown =>
    rw [if_pos unknown] at found
    have lookup : store.txLoc.lookup txid = some funding := found
    have outside : txid ∉ ordinals.map Prod.fst := by
      intro member
      obtain ⟨row, inOrdinals, rfl⟩ := mem_map.mp member
      rw [fresh.located row.1 (numbered row inOrdinals)] at lookup
      cases lookup
    have kept : (batch.txLoc.apply store.txLoc).lookup txid = some funding := by
      rw [Writes.lookup_apply, located]
      simpa [lastPut_eq_none.mpr outside] using lookup
    exact kept
  · next known =>
    rwa [if_neg known] at found

/-- Coins: the created outputs go, the spent coins come back. -/
theorem revert_coins (fresh : NewTxids env params.block store) (reads : params.store = store.reads)
    {removal : StoreBatch} {refs : List InputRef} {outputs : List OutputRef}
    (own : ∀ ref ∈ outputs, ref.txid ∈ blockTxids env params.block)
    (removes : batch.coinRemoves.map Prod.fst = refs.map InputRef.outpoint)
    (consumed : List.Forall₂ (Consumed params outputs) refs coins)
    (puts : batch.coinPuts.map Prod.fst = outputs.map OutputRef.outpoint)
    (restores : removal.coinPuts = (refs.zip coins).map fun spend => (spend.1.outpoint, spend.2))
    (cleared : ∀ outpoint, outpoint ∈ removal.coinRemoves.map Prod.fst ↔
      outpoint ∈ outputs.map OutputRef.outpoint) :
    removal.applyCoins (batch.applyCoins store.coins) = store.coins := by
  apply Finmap.ext_lookup
  intro outpoint
  rw [StoreBatch.lookup_applyCoins, StoreBatch.lookup_applyCoins]
  by_cases created : outpoint ∈ outputs.map OutputRef.outpoint
  · -- An output of the block was not in the store before.
    rw [if_pos ((cleared outpoint).mpr created)]
    obtain ⟨ref, member, rfl⟩ := mem_map.mp created
    cases held : store.coins.lookup ref.outpoint with
    | none => rfl
    | some coin => exact absurd (own ref member) (fresh.coins _ _ held)
  · rw [if_neg (fun listed => created ((cleared outpoint).mp listed))]
    have unput : lastPut outpoint batch.coinPuts = none := by
      apply lastPut_eq_none.mpr
      rwa [puts]
    cases restored : lastPut outpoint removal.coinPuts with
    | some coin =>
      -- A restored coin that is not an output of the block is the stored one.
      have member := mem_of_lastPut restored
      rw [restores] at member
      obtain ⟨⟨ref, found⟩, zipped, same⟩ := mem_map.mp member
      obtain ⟨rfl, rfl⟩ := Prod.mk.inj same
      have source := (forall₂_iff_zip.mp consumed).2 zipped
      rcases source with stored | output
      · rw [reads] at stored
        exact stored.symm
      · exact absurd output created
    | none =>
      have unspent : outpoint ∉ batch.coinRemoves.map Prod.fst := by
        intro member
        rw [removes] at member
        have unrestored := lastPut_eq_none.mp restored
        apply unrestored
        rw [restores, map_map]
        have keys : (refs.zip coins).map (Prod.fst ∘ fun spend => (spend.1.outpoint, spend.2)) =
            refs.map InputRef.outpoint := by
          have firsts : (refs.zip coins).map Prod.fst = refs :=
            map_fst_zip (le_of_eq consumed.length_eq)
          nth_rewrite 2 [← firsts]
          rw [map_map]
          rfl
        rwa [keys]
      rw [if_neg unspent, unput]
      rfl

/-- Every numbered transaction is one of the list, with an ordinal after the first. -/
theorem mem_ordinalsFrom {row : Txid × Nat} (member : row ∈ ordinalsFrom env firstTxseq txIdx txs) :
    ∃ tx position, (tx, position) ∈ txs.zipIdx txIdx ∧
      row = (computeTxid env.hashing tx, firstTxseq + position) := by
  induction txs generalizing txIdx with
  | nil => cases member
  | cons tx rest ih =>
    rw [ordinalsFrom, mem_cons] at member
    rcases member with rfl | later
    · exact ⟨tx, txIdx, by simp, rfl⟩
    · obtain ⟨found, position, listed, same⟩ := ih later
      exact ⟨found, position, by simp [listed], same⟩

/-- The ordinals a disconnect removes are those from the first one on. -/
theorem mem_removedOrdinals {firstTxseq key : Nat} {txs : List Transaction} :
    key ∈ txs.zipIdx.reverse.map (fun tx => firstTxseq + tx.2) ↔
      key ∈ List.range' firstTxseq txs.length := by
  simp only [mem_map, mem_reverse, mem_range'_1, Prod.exists]
  constructor
  · rintro ⟨tx, position, listed, rfl⟩
    have inside := snd_lt_of_mem_zipIdx listed
    omega
  · rintro ⟨after, inside⟩
    have bound : key - firstTxseq < txs.length := by omega
    refine ⟨txs[key - firstTxseq], key - firstTxseq, ?_, by omega⟩
    exact mem_zipIdx_iff_getElem?.mpr (getElem?_eq_getElem bound)

/-- The identifiers a disconnect removes are those of the block. -/
theorem mem_removedTxids {txid : Txid} {block : Block} :
    txid ∈ block.txdata.zipIdx.reverse.map (fun tx => computeTxid env.hashing tx.1) ↔
      txid ∈ blockTxids env block := by
  have firsts : block.txdata.zipIdx.map (fun tx => computeTxid env.hashing tx.1) =
      block.txdata.map (computeTxid env.hashing) := by
    calc block.txdata.zipIdx.map (fun tx => computeTxid env.hashing tx.1)
        = (block.txdata.zipIdx.map Prod.fst).map (computeTxid env.hashing) := by
          rw [map_map]
          rfl
      _ = block.txdata.map (computeTxid env.hashing) := by rw [zipIdx_map_fst]
  rw [map_reverse, mem_reverse, firsts]
  rfl

/-- The rows of a connected block's batch, with the coins it consumed. -/
structure Wrote (env : Env) (params : ConnectParams) (firstTxseq : Nat) (coins : List Coin)
    (batch : StoreBatch) : Prop where
  numbered : firstOrdinal params = .ok firstTxseq
  tip : batch.tip = some (blockHash env.hashing params.block.header)
  entry : batch.blockIndexPuts = [(blockHash env.hashing params.block.header, blockEntry params)]
  undo : batch.undoPuts = [(blockHash env.hashing params.block.header, (⟨coins⟩ : UndoData))]
  first : batch.txseqBlock = ⟨[(firstTxseq, params.height)], []⟩
  height : batch.heightHash = ⟨[(params.height, blockHash env.hashing params.block.header)], []⟩
  txLoc : batch.txLoc = ⟨ordinalsFrom env firstTxseq 0 params.block.txdata, []⟩
  txseqTxid : batch.txseqTxid =
    ⟨(ordinalsFrom env firstTxseq 0 params.block.txdata).map Prod.swap, []⟩
  removes : batch.coinRemoves.map Prod.fst =
    (blockInputRefs 0 params.block.txdata).map InputRef.outpoint
  consumed : List.Forall₂ (Consumed params (blockOutputRefs env params.block.txdata.zipIdx))
    (blockInputRefs 0 params.block.txdata) coins
  puts : batch.coinPuts.map Prod.fst =
    (blockOutputRefs env params.block.txdata.zipIdx).map OutputRef.outpoint
  funding : ∃ puts, batch.addrFunding = ⟨puts, []⟩ ∧ ∀ row ∈ puts, params.addressIndex = true ∧
    row.key ∈ (blockOutputRefs env params.block.txdata.zipIdx).map (fundingKey env firstTxseq)
  spending : ∃ puts, batch.addrSpending = ⟨puts, []⟩ ∧ ∀ row ∈ puts, params.addressIndex = true ∧
    row.key ∈ ((blockInputRefs 0 params.block.txdata).zip coins).map (spendingKey env firstTxseq)
  spent : ∃ puts, batch.spent = ⟨puts, []⟩ ∧ ∀ row ∈ puts, params.addressIndex = true ∧
    ∃ spend ∈ (blockInputRefs 0 params.block.txdata).zip coins, ∃ funding,
      fundingTxseq params.store spend.2 spend.1.outpoint.txid = some funding ∧
        row.1 = (funding, spend.1.outpoint.vout)

/-- What the transaction loop of a connected block did, and the batch that was made of it. -/
theorem connectBlock_effects (txids : params.txids env = blockTxids env params.block)
    (connected : connectBlock env params = .ok batch) :
    ∃ firstTxseq state filterPuts filterHeaderPuts spPuts,
      firstOrdinal params = .ok firstTxseq ∧
      Effects env params firstTxseq
        (blockOutputRefs env (params.block.txdata.zipIdx.filter (addsOutputs params ·.1)))
        (blockInputRefs 0 params.block.txdata)
        (ordinalsFrom env firstTxseq 0 params.block.txdata) state ∧
      batch = placeBlock env params firstTxseq state.undo
        { state.batch with filterPuts, filterHeaderPuts, spTweak.puts := spPuts } := by
  obtain ⟨firstTxseq, preResolved, state, filterPuts, filterHeaderPuts, spPuts, numbered, resolved,
    ran, -, rfl⟩ := connectBlock_eq_ok connected
  have start : Effects env params (blockContext env params firstTxseq preResolved).firstTxseq
      [] [] [] {} := Effects.initial
  have done := start.connectTransactions (preResolve_resolves resolved) rfl txids ran
  rw [nil_append, nil_append, nil_append] at done
  exact ⟨firstTxseq, state, filterPuts, filterHeaderPuts, spPuts, numbered, done, rfl⟩

/-- What a connected block wrote. -/
theorem connectBlock_wrote (aboveGenesis : 1 ≤ params.height)
    (txids : params.txids env = blockTxids env params.block)
    (connected : connectBlock env params = .ok batch) :
    ∃ firstTxseq coins, Wrote env params firstTxseq coins batch := by
  obtain ⟨firstTxseq, state, filterPuts, filterHeaderPuts, spPuts, numbered, effects, rfl⟩ :=
    connectBlock_effects txids connected
  have notGenesis : params.isGenesis = false := by
    simp only [ConnectParams.isGenesis, beq_eq_false_iff_ne]
    omega
  rw [filter_eq_self.mpr fun _ _ => by simp [addsOutputs, notGenesis]] at effects
  obtain ⟨noSpent, noFunding, noSpending⟩ := effects.noRemoves
  refine ⟨firstTxseq, state.undo, ?_⟩
  constructor
  · exact numbered
  · rfl
  · simp [placeBlock, effects.unplaced]
  · simp [placeBlock, notGenesis, effects.unplaced]
  · simp [placeBlock, effects.unplaced]
  · simp [placeBlock, effects.unplaced]
  · simp [placeBlock, effects.txLoc]
  · simp [placeBlock, effects.txseqTxid]
  · exact effects.removes
  · exact effects.consumed
  · exact effects.puts
  · exact ⟨state.batch.addrFunding.puts, by simp [placeBlock, ← noFunding], effects.funding⟩
  · exact ⟨state.batch.addrSpending.puts, by simp [placeBlock, ← noSpending], effects.spending⟩
  · exact ⟨state.batch.spent.puts, by simp [placeBlock, ← noSpent], effects.spent⟩

/-- The batch that disconnects a block just connected. -/
def reversal (env : Env) (params : ConnectParams) (store : InMemoryStore) (batch : StoreBatch)
    (firstTxseq : Nat) (coins : List Coin) : StoreBatch :=
  disconnectedBatch env (undoing params store batch ⟨coins⟩ firstTxseq) coins

section Families

theorem Wrote.ordinal_txid (row : Txid × Nat)
    (member : row ∈ ordinalsFrom env firstTxseq 0 params.block.txdata) :
    row.1 ∈ blockTxids env params.block := by
  obtain ⟨tx, position, listed, rfl⟩ := mem_ordinalsFrom member
  exact mem_map_of_mem (fst_mem_of_mem_zipIdx listed)

/-- The outputs the reversal removes are the outputs of the block. -/
theorem mem_reversal_coinRemoves (outpoint : OutPoint) :
    outpoint ∈ (reversal env params store batch firstTxseq coins).coinRemoves.map Prod.fst ↔
      outpoint ∈ (blockOutputRefs env params.block.txdata.zipIdx).map OutputRef.outpoint := by
  have removes : (reversal env params store batch firstTxseq coins).coinRemoves.map Prod.fst =
      (blockOutputRefs env params.block.txdata.zipIdx.reverse).map OutputRef.outpoint := by
    simp [reversal, disconnectedBatch, removedBatch, restoredBatch, undoing, Function.comp_def]
  rw [removes]
  simp [blockOutputRefs]

/-- The index rows the reversal removes are those of the block's inputs and outputs. -/
theorem reversal_indexes :
    (reversal env params store batch firstTxseq coins).spent = ⟨[], indexed params.addressIndex
      (((blockInputRefs 0 params.block.txdata).zip coins).filterMap
        (spentKey (store.writeBatch batch).reads))⟩ ∧
    (reversal env params store batch firstTxseq coins).addrFunding =
      ⟨[], indexed params.addressIndex ((blockOutputRefs env params.block.txdata.zipIdx.reverse).map
        (fundingKey env firstTxseq))⟩ ∧
    (reversal env params store batch firstTxseq coins).addrSpending =
      ⟨[], indexed params.addressIndex
        (((blockInputRefs 0 params.block.txdata).zip coins).map (spendingKey env firstTxseq))⟩ := by
  cases enabled : params.addressIndex with
  | true =>
    simp [reversal, disconnectedBatch, removedBatch, restoredBatch, undoing, spentRemoveKey,
      spendingRemoveKey, enabled, indexed, filterMap_eq_flatMap_toList, map_eq_flatMap, spentKey,
      spendingKey]
  | false =>
    simp [reversal, disconnectedBatch, removedBatch, restoredBatch, undoing, spentRemoveKey,
      spendingRemoveKey, enabled, indexed]

section

variable (wrote : Wrote env params firstTxseq coins batch)
include wrote

theorem Wrote.revert_txLoc (fresh : NewTxids env params.block store) :
    (reversal env params store batch firstTxseq coins).txLoc.apply
      (batch.txLoc.apply store.txLoc) = store.txLoc := by
  rw [wrote.txLoc]
  change Writes.apply ⟨[], params.block.txdata.zipIdx.reverse.map fun tx =>
    computeTxid env.hashing tx.1⟩ (Writes.apply _ store.txLoc) = _
  rw [Writes.apply_removes_apply_puts]
  · apply removeAll_of_absent
    intro txid listed
    exact fresh.located txid ((mem_removedTxids).mp listed)
  · intro row member
    exact (mem_removedTxids).mpr (Wrote.ordinal_txid row member)

theorem Wrote.revert_txseqTxid :
    (reversal env params store batch firstTxseq coins).txseqTxid.apply
      (batch.txseqTxid.apply store.txseqTxid) =
        removeAll store.txseqTxid (List.range' firstTxseq params.block.txdata.length) := by
  rw [wrote.txseqTxid]
  change Writes.apply ⟨[], params.block.txdata.zipIdx.reverse.map fun tx => firstTxseq + tx.2⟩
    (Writes.apply _ store.txseqTxid) = _
  rw [Writes.apply_removes_apply_puts]
  · exact removeAll_congr _ fun key => mem_removedOrdinals
  · intro row member
    obtain ⟨ordinal, listed, rfl⟩ := mem_map.mp member
    obtain ⟨tx, position, inBlock, rfl⟩ := mem_ordinalsFrom listed
    exact mem_map.mpr ⟨(tx, position), mem_reverse.mpr inBlock, rfl⟩

theorem Wrote.revert_spent
    (reads : params.store = store.reads) (fresh : NewTxids env params.block store) :
    (reversal env params store batch firstTxseq coins).spent.apply
      (batch.spent.apply store.spent) =
        removeAll store.spent (indexed params.addressIndex
          (((blockInputRefs 0 params.block.txdata).zip coins).filterMap
            (spentKey (store.writeBatch batch).reads))) := by
  obtain ⟨puts, rows, keys⟩ := wrote.spent
  rw [rows, reversal_indexes.1, Writes.apply_removes_apply_puts]
  intro row member
  obtain ⟨enabled, spend, listed, funding, found, key⟩ := keys row member
  rw [reads] at found
  have after := fundingTxseq_writeBatch fresh wrote.txLoc Wrote.ordinal_txid found
  rw [key, indexed, if_pos enabled]
  exact mem_filterMap.mpr ⟨spend, listed, by simp [spentKey, after]⟩

theorem Wrote.revert_addrFunding :
    (reversal env params store batch firstTxseq coins).addrFunding.apply AddrFundingRow.key
      (batch.addrFunding.apply AddrFundingRow.key store.addrFunding) =
        store.addrFunding.filter fun row => row.key ∉ indexed params.addressIndex
          ((blockOutputRefs env params.block.txdata.zipIdx).map (fundingKey env firstTxseq)) := by
  obtain ⟨puts, rows, keys⟩ := wrote.funding
  have reversed (key : AddrFundingKey) : key ∈ indexed params.addressIndex
      ((blockOutputRefs env params.block.txdata.zipIdx.reverse).map (fundingKey env firstTxseq)) ↔
      key ∈ indexed params.addressIndex
        ((blockOutputRefs env params.block.txdata.zipIdx).map (fundingKey env firstTxseq)) := by
    cases params.addressIndex <;> simp [indexed, blockOutputRefs]
  rw [rows, reversal_indexes.2.1, RowWrites.apply_removes_apply_puts]
  · simp only [reversed]
  · intro row member
    obtain ⟨enabled, listed⟩ := keys row member
    rwa [reversed, indexed, if_pos enabled]

theorem Wrote.revert_addrSpending :
    (reversal env params store batch firstTxseq coins).addrSpending.apply AddrSpendingRow.key
      (batch.addrSpending.apply AddrSpendingRow.key store.addrSpending) =
        store.addrSpending.filter fun row => row.key ∉ indexed params.addressIndex
          (((blockInputRefs 0 params.block.txdata).zip coins).map
            (spendingKey env firstTxseq)) := by
  obtain ⟨puts, rows, keys⟩ := wrote.spending
  rw [rows, reversal_indexes.2.2, RowWrites.apply_removes_apply_puts]
  intro row member
  obtain ⟨enabled, listed⟩ := keys row member
  rwa [indexed, if_pos enabled]

end

end Families

/-- Connecting a block above the first and disconnecting it again gives back
every coin and every transaction location, moves the tip to the block's parent,
and leaves every other family as it was, without the rows under the keys that
belong to the block: its height, its ordinals, and the index keys of its inputs
and outputs. -/
theorem disconnectBlock_connectBlock (reads : params.store = store.reads)
    (aboveGenesis : 1 ≤ params.height) (txids : params.txids env = blockTxids env params.block)
    (fresh : NewTxids env params.block store) {batch : StoreBatch}
    (connected : connectBlock env params = .ok batch) :
    ∃ undo firstTxseq removal,
      batch.undoPuts = [(blockHash env.hashing params.block.header, undo)] ∧
      batch.txseqBlock.puts = [(firstTxseq, params.height)] ∧
      disconnectBlock env (undoing params store batch undo firstTxseq) = .ok removal ∧
      Reverted env params firstTxseq undo (store.writeBatch batch) store
        ((store.writeBatch batch).writeBatch removal) := by
  obtain ⟨firstTxseq, coins, wrote⟩ := connectBlock_wrote aboveGenesis txids connected
  have disconnected : disconnectBlock env (undoing params store batch ⟨coins⟩ firstTxseq) =
      .ok (reversal env params store batch firstTxseq coins) :=
    disconnectBlock_eq_ok rfl wrote.consumed.length_eq
  refine ⟨⟨coins⟩, firstTxseq, _, wrote.undo, by rw [wrote.first], disconnected, ?_⟩
  constructor
  · exact revert_coins fresh reads (fun ref member => txid_of_mem_blockOutputRefs member)
      wrote.removes wrote.consumed wrote.puts rfl mem_reversal_coinRemoves
  · exact wrote.revert_txLoc fresh
  · rfl
  · change Writes.apply ⟨[], [params.height]⟩ (batch.heightHash.apply store.heightIndex) = _
    rw [wrote.height, Writes.apply_removes_apply_puts store.heightIndex (by simp)]
    rfl
  · change Writes.apply ⟨[], [firstTxseq]⟩ (batch.txseqBlock.apply store.txseqBlock) = _
    rw [wrote.first, Writes.apply_removes_apply_puts store.txseqBlock (by simp)]
    rfl
  · exact wrote.revert_txseqTxid
  · exact wrote.revert_spent reads fresh
  · exact wrote.revert_addrFunding
  · exact wrote.revert_addrSpending

end RoundTrip

/-! ## A block that spends its own output -/

namespace Sample

/-- An input without a lock. -/
def input (txid : Txid) (vout : UInt32) (scriptSig : Consensus.Bytes) : TxIn :=
  ⟨⟨txid, vout⟩, scriptSig, 0xFFFFFFFF, []⟩

/-- An output anyone can spend. -/
def output (value : UInt64) : TxOut := ⟨value, [0x51]⟩

def externalTxid : Txid :=
  Hash256.ofDisplay 0x46dfb9315bbebdadf33eae5864650f8b7d40d4f817073242890d019afcaba646

def parentHash : BlockHash :=
  Hash256.ofDisplay 0xca457d25d97c847926d5fef7bce7d068ffa689e927f05449012160fff72f36db

def coinbaseTxid : Txid :=
  Hash256.ofDisplay 0xca78e669f7df907e33017497a414dc55554ac39c7b9a0b6a832adb150b8f27d3

def firstTxid : Txid :=
  Hash256.ofDisplay 0x7e732ebaeb734168b44d853b7876f399c94e1a4e2b253467cdfc1f2a4ba72c7d

def secondTxid : Txid :=
  Hash256.ofDisplay 0xafce22f794094a5627e0e65533825e39bd0585b2f6d6dc8ba96eaf7305069efe

def headerHash : BlockHash :=
  Hash256.ofDisplay 0x50ec664376262b76892f248bebe984c970ddcff78f926d2e34d1dc8b1fd0ad26

def trueScripthash : Scripthash :=
  Hash256.ofDisplay 0x6032c38c0bc0e91e726f1e55e1832e434509001a7aed5cfd881b6ef07215e84a

def coinbaseTx : Transaction :=
  ⟨2, 0, [input (Hash256.repeated 0) 0xFFFFFFFF [0x02, 0x96, 0x00, 0x00]], [output 2_500_000_000]⟩

/-- Spends a stored coin; its second output carries data. -/
def firstTx : Transaction :=
  ⟨2, 0, [input externalTxid 0 []], [output 1000, ⟨0, [0x6a, 0x01, 0x2a]⟩]⟩

/-- Spends the first output of the transaction before it. -/
def secondTx : Transaction := ⟨2, 0, [input firstTxid 0 []], [output 900]⟩

def header : Header where
  version := 0x20000000
  prevBlockhash := parentHash
  merkleRoot := Hash256.ofDisplay 0xb249bcdc567e02ce028472e434faa8f36a9e3b9dd44fe80cd3804108280d808b
  time := 1_600_000_000
  bits := 0x207fffff
  nonce := 0

def block : Block := ⟨header, [coinbaseTx, firstTx, secondTx]⟩

/-- The hashes of the sample's transactions, header and output script. -/
def hashing : Hashing where
  sha256 bytes := if bytes = [0x51] then trueScripthash else Hash256.repeated 0
  sha256d bytes :=
    if bytes = coinbaseTx.encodeBase then coinbaseTxid
    else if bytes = firstTx.encodeBase then firstTxid
    else if bytes = secondTx.encodeBase then secondTxid
    else if bytes = header.encode then headerHash
    else Hash256.repeated 0

def env : Env where
  build := ⟨true⟩
  hashing := hashing

def externalCoin : Coin := ⟨2000, [0x51], 10, false, 7⟩

/-- A store whose tip is the sample's parent. -/
def store : InMemoryStore where
  coins := putAll ∅ [(⟨externalTxid, 0⟩, externalCoin)]
  tip := some parentHash
  heightIndex := putAll ∅ [(149, parentHash)]
  txLoc := putAll ∅ [(externalTxid, 7)]
  txseqTxid := putAll ∅ [(7, externalTxid)]
  txseqBlock := putAll ∅ [(0, 10)]
  chainTx := putAll ∅ [(parentHash, 160)]

/-- The same store after the block's data was stored: its height is mapped to it
before it is connected. -/
def storeWithRow : InMemoryStore :=
  { store with heightIndex := store.heightIndex.insert 150 headerHash }

def params (store : InMemoryStore) : ConnectParams where
  store := store.reads
  block := block
  height := 150
  parentChainwork := 300
  fileNumber := 0
  dataPos := 8
  verifyTransaction _ _ _ := .ok ()
  medianTimePast := 1_599_999_000
  network := .regtest
  addressIndex := true
  builders := ⟨fun _ _ _ => .error "off", fun _ _ _ _ => .ok none⟩

theorem newTxids {heightIndex : Map Nat BlockHash} :
    NewTxids env block { store with heightIndex } := by
  constructor
  · intro outpoint coin held
    have only : outpoint = ⟨externalTxid, 0⟩ := by
      by_contra different
      simp [store, lookup_insert, Ne.symm different] at held
    rw [only]
    decide +kernel
  · have located : ∀ txid ∈ blockTxids env block, store.txLoc.lookup txid = none := by
      decide +kernel
    exact located

end Sample

open Sample

/-- The sample block goes through its store and back. -/
theorem disconnectBlock_connectBlock_sample :
    ∃ batch undo firstTxseq removal,
      connectBlock env (params store) = .ok batch ∧
      batch.undoPuts = [(headerHash, undo)] ∧
      disconnectBlock env (undoing (params store) store batch undo firstTxseq) = .ok removal ∧
      Reverted env (params store) firstTxseq undo (store.writeBatch batch) store
        ((store.writeBatch batch).writeBatch removal) := by
  obtain ⟨batch, connected⟩ : ∃ batch, connectBlock env (params store) = .ok batch :=
    exists_of_isOk (by decide +kernel)
  obtain ⟨undo, firstTxseq, removal, undoRows, -, disconnected, reverted⟩ :=
    disconnectBlock_connectBlock rfl (by decide) rfl (newTxids) connected
  have hash : blockHash hashing header = headerHash := by decide +kernel
  exact ⟨batch, undo, firstTxseq, removal, connected, hash ▸ undoRows, disconnected, reverted⟩

/-- Connect a block, disconnect it with what its batch recorded, and return the
store. -/
def connectThenDisconnect (env : Env) (params : ConnectParams) (store : InMemoryStore) :
    Option InMemoryStore :=
  match connectBlock env params with
  | .ok batch =>
    match batch.undoPuts, batch.txseqBlock.puts with
    | [(_, undo)], [(firstTxseq, _)] =>
      match disconnectBlock env (undoing params store batch undo firstTxseq) with
      | .ok removal => some ((store.writeBatch batch).writeBatch removal)
      | _ => none
    | _, _ => none
  | _ => none

/-- A stored block's height row, written before the block is connected, is gone
after the round trip. -/
theorem connectThenDisconnect_loses_height_row :
    NewTxids env block storeWithRow ∧
      (blockTxids env block).Nodup ∧
      enforcesBip30 env (params storeWithRow) = true ∧
      storeWithRow.getBlockHashByHeight 150 = some headerHash ∧
      (connectThenDisconnect env (params storeWithRow)
        storeWithRow).map (fun store => store.getBlockHashByHeight 150) = some none := by
  refine ⟨newTxids, ?_, ?_, ?_, ?_⟩ <;> decide +kernel

end Satd.Chain
