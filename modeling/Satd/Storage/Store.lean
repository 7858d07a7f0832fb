import Satd.Bitcoin.Types
import Satd.Lib.KeyedMap

/-!
# The chainstate store

Coins, undo data, block index entries and index rows; the batch in which the
node writes them; and the in-memory store, which applies a batch at once. Every
family of rows writes its puts before its removes.

`Store` is the part of the store interface that connecting and disconnecting a
block read. Backfill cursors and completeness markers travel in the same batch in
the source and are read by none of the functions modelled here; they are left out.
-/

namespace Satd.Storage

open KeyedMap Satd.Bitcoin
open Satd.Consensus (Bytes)

/-- The largest ordinal a transaction can take. -/
def txseqMax : Nat := 2 ^ 40 - 1

/-- The ordinal of a coin loaded from a snapshot: not known. -/
def txseqUnknown : Nat := 0

/-- A single unspent transaction output. -/
structure Coin where
  amount : Nat
  scriptPubkey : Bytes
  height : Nat
  coinbase : Bool
  /-- Chain-order ordinal of the transaction that created this output. -/
  txseq : Nat
  deriving DecidableEq

/-- The coins a block spent, one per non-coinbase input in connect order. -/
structure UndoData where
  spentCoins : List Coin
  deriving DecidableEq

inductive BlockStatus where
  | headerOnly | dataStored | valid | invalid | pruned
  deriving DecidableEq, Repr

structure BlockIndexEntry where
  header : Header
  height : Nat
  status : BlockStatus
  numTx : Nat
  fileNumber : Nat
  dataPos : Nat
  chainwork : Nat
  deriving DecidableEq

/-! ## Index rows -/

abbrev Scripthash := Hash256

structure AddrFundingKey where
  scripthash : Scripthash
  txseq : Nat
  vout : UInt32
  deriving DecidableEq

structure AddrFundingRow where
  scripthash : Scripthash
  txseq : Nat
  vout : UInt32
  amountSat : Nat
  deriving DecidableEq

def AddrFundingRow.key (row : AddrFundingRow) : AddrFundingKey :=
  ⟨row.scripthash, row.txseq, row.vout⟩

structure AddrSpendingKey where
  scripthash : Scripthash
  txseq : Nat
  vin : UInt32
  deriving DecidableEq

structure AddrSpendingRow where
  scripthash : Scripthash
  txseq : Nat
  vin : UInt32
  fundingTxseq : Nat
  fundingVout : UInt32
  deriving DecidableEq

def AddrSpendingRow.key (row : AddrSpendingRow) : AddrSpendingKey :=
  ⟨row.scripthash, row.txseq, row.vin⟩

/-- The consumed output a `spent` row is keyed by, and the input that spends it. -/
abbrev SpentKey := Nat × UInt32
abbrev SpentBy := Nat × UInt32

structure FilterKey where
  filterType : UInt8
  height : Nat
  deriving DecidableEq

/-! ## Batches -/

/-- Rows of a family kept as a list and removed by key. -/
structure RowWrites (κ ρ : Type) where
  puts : List ρ := []
  removes : List κ := []

/-- Append the new rows, then keep the rows whose key is not removed. -/
def RowWrites.apply {κ ρ : Type} [DecidableEq κ] (writes : RowWrites κ ρ) (key : ρ → κ)
    (rows : List ρ) : List ρ :=
  (rows ++ writes.puts).filter (fun row => key row ∉ writes.removes)

/-- One batch for two, as for `Writes`. -/
def RowWrites.merge {κ ρ : Type} [DecidableEq κ] (key : ρ → κ) (earlier later : RowWrites κ ρ) :
    RowWrites κ ρ where
  puts := earlier.puts.filter (fun row => key row ∉ later.removes) ++ later.puts
  removes := earlier.removes.filter (fun removed => removed ∉ later.puts.map key) ++ later.removes

/-- One atomic write. -/
structure StoreBatch where
  blockIndexPuts : List (BlockHash × BlockIndexEntry) := []
  coinPuts : List (OutPoint × Coin) := []
  /-- Outpoint, spent amount and spent height. -/
  coinRemoves : List (OutPoint × Nat × Nat) := []
  /-- Outpoint, stored amount and stored height of a put that replaces a row. -/
  coinOverwrites : List (OutPoint × Nat × Nat) := []
  tip : Option BlockHash := none
  heightHash : Writes Nat BlockHash := {}
  undoPuts : List (BlockHash × UndoData) := []
  txseqBlock : Writes Nat Nat := {}
  txLoc : Writes Txid Nat := {}
  txseqTxid : Writes Nat Txid := {}
  chainTxPuts : List (BlockHash × Nat) := []
  addrFunding : RowWrites AddrFundingKey AddrFundingRow := {}
  addrSpending : RowWrites AddrSpendingKey AddrSpendingRow := {}
  spent : Writes SpentKey SpentBy := {}
  filterPuts : List (FilterKey × Bytes) := []
  filterHeaderPuts : List (FilterKey × Hash256) := []
  filterRemoves : List FilterKey := []
  spTweak : Writes Nat Bytes := {}
  opreturnStrip : Writes BlockHash Bytes := {}

/-- One batch for two: the last writer of a key wins. -/
def StoreBatch.merge (earlier later : StoreBatch) : StoreBatch where
  blockIndexPuts := earlier.blockIndexPuts ++ later.blockIndexPuts
  coinPuts := earlier.coinPuts ++ later.coinPuts
  coinRemoves := earlier.coinRemoves ++ later.coinRemoves
  coinOverwrites := earlier.coinOverwrites ++ later.coinOverwrites
  tip := later.tip.or earlier.tip
  heightHash := earlier.heightHash.merge later.heightHash
  undoPuts := earlier.undoPuts ++ later.undoPuts
  txseqBlock := earlier.txseqBlock.merge later.txseqBlock
  txLoc := earlier.txLoc.merge later.txLoc
  txseqTxid := earlier.txseqTxid.merge later.txseqTxid
  chainTxPuts := earlier.chainTxPuts ++ later.chainTxPuts
  addrFunding := earlier.addrFunding.merge AddrFundingRow.key later.addrFunding
  addrSpending := earlier.addrSpending.merge AddrSpendingRow.key later.addrSpending
  spent := earlier.spent.merge later.spent
  filterPuts := earlier.filterPuts.filter (fun row => row.1 ∉ later.filterRemoves) ++
    later.filterPuts
  filterHeaderPuts := earlier.filterHeaderPuts.filter (fun row => row.1 ∉ later.filterRemoves) ++
    later.filterHeaderPuts
  filterRemoves := earlier.filterRemoves.filter (fun key => key ∉ later.filterPuts.map Prod.fst) ++
    later.filterRemoves
  spTweak := earlier.spTweak.merge later.spTweak
  opreturnStrip := earlier.opreturnStrip.merge later.opreturnStrip

/-! ## The in-memory store -/

/-- The in-memory store's rows. -/
structure InMemoryStore where
  blockIndex : Map BlockHash BlockIndexEntry := ∅
  coins : Map OutPoint Coin := ∅
  tip : Option BlockHash := none
  heightIndex : Map Nat BlockHash := ∅
  undo : Map BlockHash UndoData := ∅
  txLoc : Map Txid Nat := ∅
  txseqTxid : Map Nat Txid := ∅
  txseqBlock : Map Nat Nat := ∅
  chainTx : Map BlockHash Nat := ∅
  addrFunding : List AddrFundingRow := []
  addrSpending : List AddrSpendingRow := []
  spent : Map SpentKey SpentBy := ∅
  filter : Map FilterKey Bytes := ∅
  filterHeader : Map FilterKey Hash256 := ∅
  spTweaks : Map Nat Bytes := ∅

/-- The coin rows of a batch: its puts, then its removes. -/
def StoreBatch.applyCoins (batch : StoreBatch) (coins : Map OutPoint Coin) : Map OutPoint Coin :=
  removeAll (putAll coins batch.coinPuts) (batch.coinRemoves.map Prod.fst)

variable (store : InMemoryStore)

namespace InMemoryStore

/-- Write a batch: every family's puts, then its removes. -/
def writeBatch (batch : StoreBatch) : InMemoryStore where
  blockIndex := putAll store.blockIndex batch.blockIndexPuts
  coins := batch.applyCoins store.coins
  tip := batch.tip.or store.tip
  heightIndex := batch.heightHash.apply store.heightIndex
  undo := putAll store.undo batch.undoPuts
  txLoc := batch.txLoc.apply store.txLoc
  txseqTxid := batch.txseqTxid.apply store.txseqTxid
  txseqBlock := batch.txseqBlock.apply store.txseqBlock
  chainTx := putAll store.chainTx batch.chainTxPuts
  addrFunding := batch.addrFunding.apply AddrFundingRow.key store.addrFunding
  addrSpending := batch.addrSpending.apply AddrSpendingRow.key store.addrSpending
  spent := batch.spent.apply store.spent
  filter := removeAll (putAll store.filter batch.filterPuts) batch.filterRemoves
  filterHeader := removeAll (putAll store.filterHeader batch.filterHeaderPuts) batch.filterRemoves
  spTweaks := batch.spTweak.apply store.spTweaks

def getCoin (outpoint : OutPoint) : Option Coin := store.coins.lookup outpoint

def getBlockHashByHeight (height : Nat) : Option BlockHash := store.heightIndex.lookup height

def getBlockIndex (hash : BlockHash) : Option BlockIndexEntry := store.blockIndex.lookup hash

def getCumulativeTxCount (hash : BlockHash) : Option Nat := store.chainTx.lookup hash

def getTxSeq (txid : Txid) : Option Nat := store.txLoc.lookup txid

def getFilterHeader (key : FilterKey) : Option Hash256 := store.filterHeader.lookup key

def txidsOfSeqs (seqs : List Nat) : List (Option Txid) := seqs.map store.txseqTxid.lookup

/-- The block row with the greatest first ordinal not above the given one. -/
def precedingBlock (seq : Nat) : Option (Nat × Nat) :=
  match (store.txseqBlock.keys.filter (· ≤ seq)).max with
  | some first => (store.txseqBlock.lookup first).map fun height => (first, height)
  | none => none

/-- The first ordinal and the height of the block that holds an ordinal. The
preceding row is an answer only if its block holds that many transactions. -/
def blockOfSeq (seq : Nat) : Option (Nat × Nat) := do
  let (first, height) ← store.precedingBlock seq
  let hash ← store.getBlockHashByHeight height
  let entry ← store.getBlockIndex hash
  if first + entry.numTx ≤ seq then none else some (first, height)

def getTxLocation (txid : Txid) : Option BlockHash := do
  let seq ← store.getTxSeq txid
  let (_, height) ← store.blockOfSeq seq
  store.getBlockHashByHeight height

end InMemoryStore

/-! ## The interface -/

/-- What connecting and disconnecting a block read from a store. -/
structure Store where
  getCoin : OutPoint → Option Coin
  getBlockHashByHeight : Nat → Option BlockHash
  getBlockIndex : BlockHash → Option BlockIndexEntry
  getCumulativeTxCount : BlockHash → Option Nat
  getTxSeq : Txid → Option Nat
  getFilterHeader : FilterKey → Option Hash256

/-- The interface of the in-memory store. -/
def InMemoryStore.reads : Store where
  getCoin := store.getCoin
  getBlockHashByHeight := store.getBlockHashByHeight
  getBlockIndex := store.getBlockIndex
  getCumulativeTxCount := store.getCumulativeTxCount
  getTxSeq := store.getTxSeq
  getFilterHeader := store.getFilterHeader

/-- A coin lookup after a batch has been written. -/
theorem StoreBatch.lookup_applyCoins (batch : StoreBatch) (coins : Map OutPoint Coin)
    (outpoint : OutPoint) :
    (batch.applyCoins coins).lookup outpoint =
      if outpoint ∈ batch.coinRemoves.map Prod.fst then none
      else (lastPut outpoint batch.coinPuts).or (coins.lookup outpoint) := by
  rw [StoreBatch.applyCoins, lookup_removeAll, lookup_putAll]

end Satd.Storage
