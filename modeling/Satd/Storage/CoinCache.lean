import Satd.Storage.Store

/-!
# The write-back coin cache

`CoinCache` stands between the node and a backing store. Coins written since the
last flush live in a dirty table; coins read or flushed before live in a clean
cache that forgets entries at any time. All other rows of a batch that moves
coins or the tip wait in a pending batch, with small caches in front of some
families.

A flush drains the dirty table and the pending batch into one batch and writes
it. The backing store may refuse: it then hands the batch back, and everything
drained is put back, or it cannot say what it wrote, and the batch is lost.

The clean and the other caches are bounded in the source and evict the entry used
least recently; which entry that is does not matter here, so an eviction is an
operation of its own. Gauges, write modes and the ownership of the flush lock
are left out.
-/

namespace Satd.Storage

open KeyedMap Satd.Bitcoin Prod
open Satd.Consensus (Bytes)

/-- A coin written or spent since the last flush. -/
inductive DirtyEntry where
  /-- An unspent coin. A `fresh` one has no row in the backing store; one put
      back over a row that this window spent carries that row's amount and
      height. -/
  | present (coin : Coin) (fresh : Bool) (replaces : Option (Nat × Nat))
  /-- A spent coin. A `fresh` one was created in this window. With `rowUnknown`
      the coin was restored after a failed flush and may have no row. -/
  | spent (amount height : Nat) (fresh rowUnknown : Bool)
  deriving DecidableEq

namespace DirtyEntry

/-- The coin a read of this entry returns. -/
def coin? : DirtyEntry → Option Coin
  | present coin _ _ => some coin
  | spent _ _ _ _ => none

def isFresh : DirtyEntry → Bool
  | present _ fresh _ => fresh
  | spent _ _ fresh _ => fresh

/-- The entry after a coin was put over an earlier entry. -/
def put : Option DirtyEntry → Coin → DirtyEntry
  | none, coin => present coin true none
  | some (spent _ _ true _), coin => present coin true none
  -- A restored coin's row is not known; neither is this one's.
  | some (spent _ _ false true), coin => present coin false none
  | some (spent amount height false false), coin => present coin false (some (amount, height))
  | some (present _ fresh replaces), coin => present coin fresh replaces

/-- The entry after a coin was removed over an earlier entry. -/
def remove : Option DirtyEntry → Nat → Nat → DirtyEntry
  | some (present _ true _), amount, height => spent amount height true false
  -- The flush deletes the stored row, which is the one the store counted.
  | some (present _ false (some (amount, height))), _, _ => spent amount height false false
  | some (present _ false none), amount, height => spent amount height false true
  | some (spent _ _ _ rowUnknown), amount, height => spent amount height false rowUnknown
  | none, amount, height => spent amount height false false

/-- What the flush puts, removes and overwrites for an entry. -/
def flushedPut : DirtyEntry → Option Coin
  | present coin _ _ => some coin
  | spent _ _ _ _ => none

def flushedRemove : DirtyEntry → Option (Nat × Nat)
  | spent amount height false _ => some (amount, height)
  | _ => none

def flushedOverwrite : DirtyEntry → Option (Nat × Nat)
  | present _ _ replaces => replaces
  | spent _ _ _ _ => none

/-- The flush removes a coin that has no known row. -/
def isRowless : DirtyEntry → Bool
  | spent _ _ false rowUnknown => rowUnknown
  | _ => false

end DirtyEntry

/-- What the cache needs of a backing store: it holds coins, and writing a batch
does to them what the batch says. -/
class Backing (σ : Type) where
  coins : σ → Map OutPoint Coin
  writeBatch : σ → StoreBatch → σ
  hasTxindex : σ → Bool
  coins_writeBatch : ∀ store batch, coins (writeBatch store batch) = batch.applyCoins (coins store)

instance : Backing InMemoryStore where
  coins := InMemoryStore.coins
  writeBatch := InMemoryStore.writeBatch
  hasTxindex _ := true
  coins_writeBatch _ _ := rfl

/-- The cache and the store behind it. -/
structure CoinCache (σ : Type) where
  inner : σ
  dirty : Table OutPoint DirtyEntry := ∅
  clean : Map OutPoint Coin := ∅
  /-- Counts the batches that touched coins; guards insertions into `clean`. -/
  cleanGen : Nat := 0
  pendingTip : Option BlockHash := none
  countDelta : Int := 0
  amountDelta : Int := 0
  pendingBatch : StoreBatch := {}
  blockIndexCache : Map BlockHash BlockIndexEntry := ∅
  heightHashCache : Map Nat BlockHash := ∅
  undoCache : Map BlockHash UndoData := ∅
  txLocCache : Map Txid Nat := ∅
  chainTxCache : Map BlockHash Nat := ∅

/-- A 64-bit signed counter after an addition that wraps around. -/
def wrapI64 (value : Int) : Int := value.bmod (2 ^ 64)

/-! ## Batches by kind -/

namespace StoreBatch

variable (batch : StoreBatch)

/-- The number of coin rows a batch writes. -/
def coinDirty : Nat := batch.coinPuts.length + batch.coinRemoves.length

def hasFilter : Bool :=
  !batch.filterPuts.isEmpty || !batch.filterHeaderPuts.isEmpty || !batch.filterRemoves.isEmpty

def hasOpreturnStripOps : Bool :=
  !batch.opreturnStrip.puts.isEmpty || !batch.opreturnStrip.removes.isEmpty

/-- The batch writes rows other than coins and the tip. -/
def hasNonCoin : Bool :=
  !batch.blockIndexPuts.isEmpty || !batch.heightHash.puts.isEmpty ||
    !batch.heightHash.removes.isEmpty || !batch.undoPuts.isEmpty || !batch.txLoc.puts.isEmpty ||
    !batch.txLoc.removes.isEmpty || !batch.txseqTxid.puts.isEmpty ||
    !batch.txseqTxid.removes.isEmpty || !batch.txseqBlock.puts.isEmpty ||
    !batch.txseqBlock.removes.isEmpty || !batch.chainTxPuts.isEmpty ||
    !batch.addrFunding.puts.isEmpty || !batch.addrSpending.puts.isEmpty ||
    !batch.addrFunding.removes.isEmpty || !batch.addrSpending.removes.isEmpty ||
    !batch.spent.puts.isEmpty || !batch.spent.removes.isEmpty || !batch.spTweak.puts.isEmpty ||
    !batch.spTweak.removes.isEmpty || batch.hasFilter || batch.hasOpreturnStripOps

/-- The flush finds something to write. Address and spend puts alone do not
count. -/
def hasData : Bool :=
  !batch.coinPuts.isEmpty || !batch.coinRemoves.isEmpty || batch.tip.isSome ||
    !batch.blockIndexPuts.isEmpty || !batch.heightHash.puts.isEmpty ||
    !batch.heightHash.removes.isEmpty || !batch.undoPuts.isEmpty || !batch.txLoc.puts.isEmpty ||
    !batch.txLoc.removes.isEmpty || !batch.txseqTxid.puts.isEmpty ||
    !batch.txseqTxid.removes.isEmpty || !batch.txseqBlock.puts.isEmpty ||
    !batch.txseqBlock.removes.isEmpty || !batch.addrFunding.removes.isEmpty ||
    !batch.addrSpending.removes.isEmpty || !batch.spent.removes.isEmpty ||
    !batch.chainTxPuts.isEmpty || !batch.spTweak.puts.isEmpty || !batch.spTweak.removes.isEmpty ||
    batch.hasFilter || batch.hasOpreturnStripOps

/-- The batch without its coins and tip. -/
def nonCoin : StoreBatch :=
  { batch with coinPuts := [], coinRemoves := [], coinOverwrites := [], tip := none }

end StoreBatch

namespace CoinCache

variable {σ : Type} [Backing σ]

/-! ## Absorbing a batch -/

variable (dirty : Table OutPoint DirtyEntry)

def absorbPut (row : OutPoint × Coin) : Table OutPoint DirtyEntry :=
  dirty.insert row.1 (.put (dirty.lookup row.1) row.2)

def absorbRemove (row : OutPoint × Nat × Nat) : Table OutPoint DirtyEntry :=
  dirty.insert row.1 (.remove (dirty.lookup row.1) row.2.1 row.2.2)

/-- The dirty table after the coins of a batch: its puts, then its removes. -/
def absorbDirty (batch : StoreBatch) (dirty : Table OutPoint DirtyEntry) :
    Table OutPoint DirtyEntry :=
  batch.coinRemoves.foldl absorbRemove (batch.coinPuts.foldl absorbPut dirty)

/-- Absorb the coins of a batch. -/
def absorbCoins (batch : StoreBatch) (cache : CoinCache σ) : CoinCache σ :=
  if batch.coinDirty = 0 then cache
  else
    { cache with
      dirty := absorbDirty batch cache.dirty
      clean := removeAll (removeAll cache.clean (batch.coinPuts.map fst))
        (batch.coinRemoves.map fst)
      cleanGen := cache.cleanGen + 1
      countDelta := wrapI64 (cache.countDelta + batch.coinPuts.length - batch.coinRemoves.length)
      amountDelta := wrapI64 (cache.amountDelta + (batch.coinPuts.map (·.2.amount)).sum -
        (batch.coinRemoves.map (·.2.1)).sum) }

/-- A header alone must not take the place of a block that has its data. -/
def isDominated (status : BlockStatus) (dominant : Option BlockStatus) : Bool :=
  status == .headerOnly && (dominant == some .dataStored || dominant == some .valid)

/-- Put block index rows into their cache, leaving out dominated ones; returns
the cache and the rows that stay in the batch. -/
def absorbBlockIndex (blockIndexCache : Map BlockHash BlockIndexEntry) :
    List (BlockHash × BlockIndexEntry) →
      Map BlockHash BlockIndexEntry × List (BlockHash × BlockIndexEntry)
  | [] => (blockIndexCache, [])
  | (hash, entry) :: rest =>
    if isDominated entry.status ((blockIndexCache.lookup hash).map BlockIndexEntry.status) then
      absorbBlockIndex blockIndexCache rest
    else
      let (after, kept) := absorbBlockIndex (blockIndexCache.insert hash entry) rest
      (after, (hash, entry) :: kept)

/-- Mirror the rows of a batch in the caches in front of their families, and
leave dominated block index rows out of the batch. -/
def absorbOverlays (batch : StoreBatch) (cache : CoinCache σ) : CoinCache σ × StoreBatch :=
  let (blockIndexCache, blockIndexPuts) :=
    absorbBlockIndex cache.blockIndexCache batch.blockIndexPuts
  let located :=
    if Backing.hasTxindex cache.inner then putAll cache.txLocCache batch.txLoc.puts
    else cache.txLocCache
  ({ cache with
      pendingTip := batch.tip.or cache.pendingTip
      blockIndexCache := blockIndexCache
      heightHashCache := batch.heightHash.apply cache.heightHashCache
      undoCache := putAll cache.undoCache batch.undoPuts
      txLocCache := removeAll located batch.txLoc.removes
      chainTxCache := putAll cache.chainTxCache batch.chainTxPuts },
    { batch with blockIndexPuts })

/-- Write a batch without coins and tip straight to the backing store. Pending
block index and strip rows it supersedes are dropped before the write, pending
filter rows after it. -/
def passThrough (written : Bool) (batch : StoreBatch) (cache : CoinCache σ) : CoinCache σ :=
  let superseded := batch.blockIndexPuts.map fst
  let stripped := batch.opreturnStrip.puts.map fst ++ batch.opreturnStrip.removes
  let pending := { cache.pendingBatch with
    blockIndexPuts := cache.pendingBatch.blockIndexPuts.filter fun row => row.1 ∉ superseded
    opreturnStrip := {
      puts := cache.pendingBatch.opreturnStrip.puts.filter fun row => row.1 ∉ stripped
      removes := cache.pendingBatch.opreturnStrip.removes.filter fun hash => hash ∉ stripped } }
  if written then
    let filterKeys := batch.filterPuts.map fst
    let headerKeys := batch.filterHeaderPuts.map fst
    { cache with
      inner := Backing.writeBatch cache.inner batch.nonCoin
      pendingBatch := { pending with
        filterPuts := pending.filterPuts.filter fun row =>
          row.1 ∉ filterKeys && row.1 ∉ batch.filterRemoves
        filterHeaderPuts := pending.filterHeaderPuts.filter fun row =>
          row.1 ∉ headerKeys && row.1 ∉ batch.filterRemoves
        filterRemoves := pending.filterRemoves.filter fun key =>
          key ∉ filterKeys && key ∉ headerKeys } }
  else { cache with pendingBatch := pending }

/-- Absorb a batch. Rows of a batch that moves no coins and no tip go through to
the backing store at once, which may fail; all others wait for the flush. -/
def absorbBatch (written : Bool) (batch : StoreBatch) (cache : CoinCache σ) : CoinCache σ :=
  let (overlaid, kept) := (cache.absorbCoins batch).absorbOverlays batch
  if kept.hasNonCoin then
    if batch.coinDirty = 0 ∧ batch.tip = none then overlaid.passThrough written kept
    else { overlaid with pendingBatch := overlaid.pendingBatch.merge kept.nonCoin }
  else overlaid

/-! ## Flushing -/

/-- What a flush takes out of the cache. -/
structure Drained where
  batch : StoreBatch
  promote : List (OutPoint × Coin)
  rowlessRemoves : List OutPoint
  generation : Nat

variable (cache : CoinCache σ)

/-- Drain the dirty table, the pending batch and the pending tip. -/
def startFlush : CoinCache σ × Drained :=
  let puts := cache.dirty.rows.filterMap fun row => row.2.flushedPut.map fun coin => (row.1, coin)
  ({ cache with
      dirty := ∅, pendingBatch := {}, pendingTip := none, countDelta := 0, amountDelta := 0 },
    { batch := { cache.pendingBatch with
        coinPuts := cache.pendingBatch.coinPuts ++ puts
        coinRemoves := cache.pendingBatch.coinRemoves ++ cache.dirty.rows.filterMap fun row =>
          row.2.flushedRemove.map fun stored => (row.1, stored)
        coinOverwrites := cache.pendingBatch.coinOverwrites ++ cache.dirty.rows.filterMap fun row =>
          row.2.flushedOverwrite.map fun stored => (row.1, stored)
        tip := cache.pendingTip }
      promote := puts
      rowlessRemoves := (cache.dirty.rows.filter fun row => row.2.isRowless).map fst
      generation := cache.cleanGen })

/-- Move flushed coins to the clean cache, unless a batch was absorbed since. -/
def promote (drained : Drained) (cache : CoinCache σ) : CoinCache σ :=
  if cache.cleanGen = drained.generation then
    { cache with clean := putAll cache.clean drained.promote }
  else cache

/-- Give an outpoint an entry unless it has one. -/
def restoreEntry (row : OutPoint × DirtyEntry) : Table OutPoint DirtyEntry :=
  match dirty.lookup row.1 with
  | some _ => dirty
  | none => dirty.insert row.1 row.2

variable (drained : Drained)

/-- The entries a handed-back batch is restored to. -/
def restoredEntries : List (OutPoint × DirtyEntry) :=
  drained.batch.coinPuts.map (fun row =>
      (row.1, .present row.2 false (lastPut row.1 drained.batch.coinOverwrites))) ++
    drained.batch.coinRemoves.map fun row =>
      (row.1, .spent row.2.1 row.2.2 false (row.1 ∈ drained.rowlessRemoves))

variable (row : OutPoint × Coin)

/-- The change of count and amount that a put of a handed-back batch stands for. -/
def restoredCount : Int :=
  match lastPut row.1 drained.batch.coinOverwrites with
  | some _ => 0
  | none => 1

def restoredAmount : Int :=
  match lastPut row.1 drained.batch.coinOverwrites with
  | some stored => row.2.amount - stored.1
  | none => row.2.amount

/-- Put back what a flush drained. Entries written since the drain win. -/
def restoreAfterFailedFlush (cache : CoinCache σ) : CoinCache σ :=
  { cache with
    pendingBatch := drained.batch.nonCoin.merge cache.pendingBatch
    dirty := (restoredEntries drained).foldl restoreEntry cache.dirty
    countDelta := wrapI64 (cache.countDelta +
      (drained.batch.coinPuts.map (restoredCount drained)).sum - drained.batch.coinRemoves.length)
    amountDelta := wrapI64 (cache.amountDelta +
      (drained.batch.coinPuts.map (restoredAmount drained)).sum -
      (drained.batch.coinRemoves.map (·.2.1)).sum)
    pendingTip := cache.pendingTip.or drained.batch.tip }

/-- What becomes of a batch the flush writes to the backing store. -/
inductive WriteOutcome where
  | written | handedBack | lost
  deriving DecidableEq, Repr

/-- Flush the cache. The outcome matters only if there is something to write;
the second component says whether the flush succeeded. -/
def flushInner (outcome : WriteOutcome) (cache : CoinCache σ) : CoinCache σ × Bool :=
  let (started, drained) := cache.startFlush
  if drained.batch.hasData then
    match outcome with
    | .written =>
      ({ started with inner := Backing.writeBatch started.inner drained.batch }.promote drained,
        true)
    | .handedBack => (started.restoreAfterFailedFlush drained, false)
    | .lost => (started, false)
  else (started.promote drained, true)

/-! ## Reading coins -/

variable (outpoint : OutPoint)

/-- The coin of an outpoint, and the cache after the read. No batch is absorbed
meanwhile, so a coin read from the backing store enters the clean cache. -/
def getCoin (cache : CoinCache σ) : Option Coin × CoinCache σ :=
  match cache.dirty.lookup outpoint with
  | some entry => (entry.coin?, cache)
  | none =>
    match cache.clean.lookup outpoint with
    | some coin => (some coin, cache)
    | none =>
      match (Backing.coins cache.inner).lookup outpoint with
      | some coin => (some coin, { cache with clean := cache.clean.insert outpoint coin })
      | none => (none, cache)

def hasCoin (cache : CoinCache σ) : Bool :=
  match cache.dirty.lookup outpoint with
  | some (.present _ _ _) => true
  | some (.spent _ _ _ _) => false
  | none =>
    (cache.clean.lookup outpoint).isSome || ((Backing.coins cache.inner).lookup outpoint).isSome

/-- What the dirty table and the clean cache know of an outpoint, if anything. -/
def cachedCoin (outpoint : OutPoint) : Option (Option Coin) :=
  match cache.dirty.lookup outpoint with
  | some entry => some entry.coin?
  | none => (cache.clean.lookup outpoint).map some

/-- The coins of several outpoints, and the cache after the read. All misses are
fetched at once. -/
def getCoinsBatch (outpoints : List OutPoint) (cache : CoinCache σ) :
    List (Option Coin) × CoinCache σ :=
  let fetch := (Backing.coins cache.inner).lookup
  let misses := outpoints.filter fun outpoint => (cache.cachedCoin outpoint).isNone
  (outpoints.map fun outpoint => (cache.cachedCoin outpoint).getD (fetch outpoint),
    { cache with clean := putAll cache.clean (misses.filterMap fun outpoint =>
        (fetch outpoint).map fun coin => (outpoint, coin)) })

/-- The clean cache forgets an entry. -/
def evictClean (cache : CoinCache σ) : CoinCache σ :=
  { cache with clean := cache.clean.erase outpoint }

end CoinCache

end Satd.Storage
