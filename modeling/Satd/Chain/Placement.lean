import Satd.Chain.RoundTrip
import Satd.Storage.Overlay

/-!
# The place of a block in the chain

The batches of `connectBlock` and `disconnectBlock` place a block at the end of
the chain and take it away again, in the sense of the rows that describe a
chain. What is known of the index rows of such batches, through the cache or
not, holds for connected and disconnected blocks.
-/

namespace Satd.Chain

open Rust KeyedMap Satd.Bitcoin Satd.Storage List

/-- A block as an element of the chain. -/
def chainBlock (env : Env) (params : ConnectParams) : ChainBlock where
  hash := blockHash env.hashing params.block.header
  entry := blockEntry params
  txids := blockTxids env params.block

theorem ordinalsFrom_eq_zipIdx (env : Env) (firstTxseq txIdx : Nat) (txs : List Transaction) :
    ordinalsFrom env firstTxseq txIdx txs =
      (txs.map (computeTxid env.hashing)).zipIdx (firstTxseq + txIdx) := by
  induction txs generalizing txIdx with
  | nil => rfl
  | cons tx rest ih =>
    rw [ordinalsFrom, ih, map_cons, zipIdx_cons, add_assoc]

/-- A block is connected at the end of a chain: its height is the chain's length
and its parent's count of transactions the chain's. -/
structure ExtendsChain (env : Env) (params : ConnectParams) (chain : List ChainBlock) : Prop where
  aboveGenesis : 1 ≤ params.height
  height : params.height = chain.length
  counted : params.store.getCumulativeTxCount params.block.header.prevBlockhash =
    some (txCount chain)
  txids : params.txids env = blockTxids env params.block
  nonempty : params.block.txdata ≠ []
  few : params.block.txdata.length < 2 ^ 32
  distinct : (blockTxids env params.block).Nodup
  unnamed : ∀ other ∈ chain, other.hash ≠ blockHash env.hashing params.block.header

variable {batch : StoreBatch} {chain : List ChainBlock} {env : Env} {params : DisconnectParams}

/-- A connected block's batch places it at the end of the chain. -/
theorem connectBlock_connects {params : ConnectParams} (extending : ExtendsChain env params chain)
    (connected : connectBlock env params = .ok batch) :
    Connects chain (chainBlock env params) batch := by
  obtain ⟨firstTxseq, coins, wrote⟩ :=
    connectBlock_wrote extending.aboveGenesis extending.txids connected
  have first : firstTxseq = txCount chain := by
    have notGenesis : params.isGenesis = false := by
      have := extending.aboveGenesis
      simp only [ConnectParams.isGenesis, beq_eq_false_iff_ne]
      omega
    have numbered := wrote.numbered
    rw [firstOrdinal, notGenesis, extending.counted] at numbered
    cases numbered
    rfl
  subst first
  have size : (blockTxids env params.block).length = params.block.txdata.length := length_map _
  constructor
  · exact wrote.tip
  · rw [wrote.height, extending.height]
    rfl
  · exact wrote.entry
  · rfl
  · rw [chainBlock, blockEntry, size]
    exact Nat.mod_eq_of_lt extending.few
  · intro noTxids
    exact extending.nonempty (map_eq_nil_iff.mp noTxids)
  · exact extending.distinct
  · exact extending.unnamed
  · rw [wrote.first, extending.height]
  · rw [wrote.txLoc, ordinalsFrom_eq_zipIdx, add_zero]
    rfl
  · rw [wrote.txseqTxid, ordinalsFrom_eq_zipIdx, add_zero]
    rfl

/-- The batch of a disconnect that succeeds. -/
theorem eq_disconnectedBatch (disconnected : disconnectBlock env params = .ok batch) :
    batch = disconnectedBatch env params params.undo.spentCoins := by
  have aligned : (blockInputRefs 0 params.block.txdata).length = params.undo.spentCoins.length := by
    rw [blockInputRefs_length]
    by_contra different
    have mismatch : (params.undo.spentCoins.length != expectedUndoCount params.block) = true := by
      rw [bne_iff_ne]
      exact fun same => different same.symm
    simp only [disconnectBlock, mismatch, Outcome.failWhen_true] at disconnected
    cases disconnected
  have built : disconnectBlock env params =
      .ok (disconnectedBatch env params params.undo.spentCoins) :=
    disconnectBlock_eq_ok rfl aligned
  rw [built] at disconnected
  cases disconnected
  rfl

/-- A disconnected block's batch takes it from the end of the chain. -/
theorem disconnectBlock_disconnects {block : ChainBlock}
    (height : params.blockHeight = chain.length) (first : params.firstTxseq = txCount chain)
    (txids : block.txids = blockTxids env params.block)
    (disconnected : disconnectBlock env params = .ok batch) :
    Disconnects chain block batch := by
  rw [eq_disconnectedBatch disconnected]
  constructor
  · simp [disconnectedBatch]
  · rw [← height]
    rfl
  · rfl
  · rw [← first]
    rfl
  · rfl
  · intro txid
    rw [txids]
    exact mem_removedTxids
  · rfl
  · intro seq
    have size : block.txids.length = params.block.txdata.length := by
      rw [txids]
      exact length_map _
    rw [← first, size, ← mem_range'_1]
    exact mem_removedOrdinals

/-! ## Chains that were built -/

/-- A store that describes a chain, after blocks were connected at its end and disconnected
from it. -/
inductive Built (env : Env) : InMemoryStore → List ChainBlock → Prop where
  | start {store chain} (represents : Represents store chain) : Built env store chain
  | connect {store chain params batch} (built : Built env store chain)
      (extending : ExtendsChain env params chain)
      (connected : connectBlock env params = .ok batch) :
      Built env (store.writeBatch batch) (chain ++ [chainBlock env params])
  | disconnect {store chain block params batch} (built : Built env store (chain ++ [block]))
      (height : params.blockHeight = chain.length) (first : params.firstTxseq = txCount chain)
      (txids : block.txids = blockTxids env params.block)
      (disconnected : disconnectBlock env params = .ok batch) :
      Built env (store.writeBatch batch) chain

theorem Built.represents {env : Env} {store : InMemoryStore} {chain : List ChainBlock}
    (built : Built env store chain) : Represents store chain := by
  induction built with
  | start represents => exact represents
  | connect _ extending connected ih => exact ih.connect (connectBlock_connects extending connected)
  | disconnect _ height first txids disconnected ih =>
    exact ih.disconnect (disconnectBlock_disconnects height first txids disconnected)

/-- However the chain came about, its rows name its blocks by height, an ordinal lies in the block
that numbers it and past the end in none, and a transaction that has a row is found in a block of
the chain that holds it. -/
theorem built_rows_exact {env : Env} {store : InMemoryStore} {chain : List ChainBlock}
    (built : Built env store chain) :
    (∀ height, store.getBlockHashByHeight height = chain[height]?.map ChainBlock.hash) ∧
    (∀ seq height, store.blockOfSeq seq = some (firstOf chain height, height) ↔
      height < chain.length ∧ firstOf chain height ≤ seq ∧ seq < firstOf chain (height + 1)) ∧
    (∀ seq, txCount chain ≤ seq → store.blockOfSeq seq = none) ∧
    ∀ txid seq, store.getTxSeq txid = some seq →
      ∃ block ∈ chain, txid ∈ block.txids ∧ store.getTxLocation txid = some block.hash := by
  have represents := built.represents
  refine ⟨represents.heights, fun seq height => ⟨fun found => ?_, ?_⟩,
    fun seq past => represents.blockOfSeq_of_past past, fun txid seq row => ?_⟩
  · by_cases inChain : seq < txCount chain
    · obtain ⟨other, inside, begun, unfinished⟩ := exists_covering inChain
      rw [represents.blockOfSeq_of_covering inside begun unfinished] at found
      obtain rfl : other = height := (Prod.mk.inj (Option.some.inj found)).2
      exact ⟨inside, begun, unfinished⟩
    · rw [represents.blockOfSeq_of_past (by omega)] at found
      cases found
  · rintro ⟨inside, begun, unfinished⟩
    exact represents.blockOfSeq_of_covering inside begun unfinished
  · obtain ⟨height, block, placed, position, listed, rfl⟩ := represents.located txid seq row
    obtain ⟨inside, -⟩ := List.getElem?_eq_some_iff.mp placed
    obtain ⟨within, -⟩ := List.getElem?_eq_some_iff.mp listed
    have covering := represents.blockOfSeq_of_covering inside
      (Nat.le_add_right (firstOf chain height) position) (by rw [firstOf_succ placed]; omega)
    refine ⟨block, mem_of_getElem? placed, mem_of_getElem? listed, ?_⟩
    simp [InMemoryStore.getTxLocation, row, covering, InMemoryStore.getBlockHashByHeight,
      represents.heights, placed]

open Sample in
/-- A block with a coinbase only, on a chain of one block. -/
def onFirst : ConnectParams :=
  { Sample.params { chainTx := putAll ∅ [(parentHash, 1)] } with
    block := ⟨header, [{ coinbaseTx with input := [input (.repeated 0) 0xFFFFFFFF [0x51, 0x00]] }]⟩
    height := 1 }

theorem built_rows_exact_connected : ∃ batch, connectBlock Sample.env onFirst = .ok batch ∧
    (OverlaySample.shownFirst.writeBatch batch).getBlockHashByHeight 1 =
      some Sample.headerHash := by
  obtain ⟨batch, connected⟩ := Outcome.exists_of_isOk
    (by decide +kernel : (connectBlock Sample.env onFirst).isOk)
  have extending : ExtendsChain Sample.env onFirst [OverlaySample.block 1] := by
    constructor <;> decide +kernel
  have built := Built.connect (.start (OverlaySample.represents_empty.connect
    (OverlaySample.connects [] 1 (by simp)))) extending connected
  exact ⟨batch, connected, ((built_rows_exact built).1 1).trans (by decide +kernel)⟩

end Satd.Chain
