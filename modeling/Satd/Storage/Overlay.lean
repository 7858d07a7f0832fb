import Satd.Storage.ChainRows
import Satd.Storage.Refinement

/-!
# Index rows through the cache

A block's place in the height index and its transactions' ordinals wait in the
pending batch until the next flush. The cache answers reads of them from three
places: small caches of recent rows, the puts and removes of the pending batch,
and the backing store. Each read consults them in its own way.

The reference is an in-memory store to which every batch was written at once. A
run connects and disconnects blocks at the end of a chain, flushes, and evicts
recent rows. The reads agree with the reference as long as a disconnect removes
no row the backing store already holds.
-/

namespace Satd.Storage

open KeyedMap Satd.Bitcoin List Option

variable (cache : CoinCache InMemoryStore)

namespace CoinCache

/-! ## The reads -/

def getBlockHashByHeight (height : Nat) : Option BlockHash :=
  match cache.heightHashCache.lookup height with
  | some hash => some hash
  | none => cache.inner.getBlockHashByHeight height

/-- What the pending batch says of a transaction's ordinal. -/
inductive PendingTxLoc where
  | put (seq : Nat)
  | removed
  | untouched

def pendingTxLoc (txid : Txid) : PendingTxLoc :=
  match firstPut txid cache.pendingBatch.txLoc.puts with
  | some seq => .put seq
  | none => if txid ∈ cache.pendingBatch.txLoc.removes then .removed else .untouched

/-- The ordinal the flushed rows give a transaction. -/
def flushedTxSeq (txid : Txid) : Option Nat :=
  match cache.txLocCache.lookup txid with
  | some seq => some seq
  | none => cache.inner.getTxSeq txid

def getTxSeq (txid : Txid) : Option Nat :=
  match cache.pendingTxLoc txid with
  | .put seq => some seq
  | .removed => none
  | .untouched => cache.flushedTxSeq txid

def txidsOfSeqs (seqs : List Nat) : List (Option Txid) :=
  let pending := cache.pendingBatch.txseqTxid
  (seqs.zip (cache.inner.txidsOfSeqs seqs)).map fun stored =>
    match lastPut stored.1 pending.puts with
    | some txid => some txid
    | none => if stored.1 ∈ pending.removes then none else stored.2

/-- The row with the greatest first ordinal; of several, the last. -/
def latestRow : List (Nat × Nat) → Option (Nat × Nat)
  | [] => none
  | row :: rest =>
    match latestRow rest with
    | some best => if row.1 ≤ best.1 then some best else some row
    | none => some row

/-- The rows of the pending batch that may hold an ordinal. -/
def candidates (seq : Nat) : List (Nat × Nat) :=
  cache.pendingBatch.txseqBlock.puts.filter fun row =>
    row.1 ≤ seq ∧ row.1 ∉ cache.pendingBatch.txseqBlock.removes

/-- The rows of blocks connected since the last flush are candidates, and so is
the backing store's answer unless the pending batch removes its row. -/
def blockOfSeq (seq : Nat) : Option (Nat × Nat) :=
  let pendingBest := latestRow (cache.candidates seq)
  let stored := (cache.inner.blockOfSeq seq).filter fun row =>
    row.1 ∉ cache.pendingBatch.txseqBlock.removes
  match pendingBest, stored with
  | some best, some row => if row.1 ≤ best.1 then some best else some row
  | some best, none => some best
  | none, stored => stored

def getTxLocation (txid : Txid) : Option BlockHash :=
  match cache.txLocCache.lookup txid with
  | some seq => do
    let (_, height) ← cache.blockOfSeq seq
    cache.getBlockHashByHeight height
  | none => cache.inner.getTxLocation txid

/-- The cache of recent heights forgets a row. -/
def evictHeight (height : Nat) (cache : CoinCache InMemoryStore) : CoinCache InMemoryStore :=
  { cache with heightHashCache := cache.heightHashCache.erase height }

/-- The cache of recent ordinals forgets a row. -/
def evictTxLoc (txid : Txid) (cache : CoinCache InMemoryStore) : CoinCache InMemoryStore :=
  { cache with txLocCache := cache.txLocCache.erase txid }

variable {rows : List (Nat × Nat)}

theorem latestRow_eq_none : latestRow rows = none ↔ rows = [] := by
  cases rows with
  | nil => simp [latestRow]
  | cons row rest =>
    rw [latestRow]
    split
    · split <;> simp
    · simp

/-- The latest row is one of the rows, and none has a greater first ordinal. -/
theorem latestRow_eq_some {best : Nat × Nat} (latest : latestRow rows = some best) :
    best ∈ rows ∧ ∀ row ∈ rows, row.1 ≤ best.1 := by
  induction rows generalizing best with
  | nil => cases latest
  | cons row rest ih =>
    rw [latestRow] at latest
    cases later : latestRow rest with
    | none =>
      rw [later] at latest
      cases latest
      simp [latestRow_eq_none.mp later]
    | some candidate =>
      obtain ⟨listed, greatest⟩ := ih later
      rw [later] at latest
      dsimp only at latest
      split at latest
      · next below =>
        cases latest
        exact ⟨mem_cons_of_mem _ listed, forall_mem_cons.mpr ⟨below, greatest⟩⟩
      · next above =>
        cases latest
        refine ⟨mem_cons_self, forall_mem_cons.mpr ⟨le_rfl, fun other member => ?_⟩⟩
        exact (greatest other member).trans (by omega)

section BlockOfSeq

variable {cache : CoinCache InMemoryStore} {seq : Nat} {row : Nat × Nat}

theorem mem_candidates : row ∈ cache.candidates seq ↔
    row ∈ cache.pendingBatch.txseqBlock.puts ∧ row.1 ≤ seq ∧
      row.1 ∉ cache.pendingBatch.txseqBlock.removes := by
  simp [candidates]

/-- The backing store's answer stands if its row is kept and later than every
candidate. -/
theorem blockOfSeq_of_stored (stored : cache.inner.blockOfSeq seq = some row)
    (kept : row.1 ∉ cache.pendingBatch.txseqBlock.removes)
    (latest : ∀ candidate ∈ cache.candidates seq, candidate.1 < row.1) :
    cache.blockOfSeq seq = some row := by
  have passes : (cache.inner.blockOfSeq seq).filter
      (fun row => row.1 ∉ cache.pendingBatch.txseqBlock.removes) = some row := by
    simp [stored, kept]
  rw [blockOfSeq, passes]
  split
  · next best other found same =>
    cases same
    have later := latest best (latestRow_eq_some found).1
    rw [if_neg (by omega)]
  · next same => cases same
  · rfl

/-- The latest candidate is the answer unless the backing store's is later. -/
theorem blockOfSeq_of_candidate (candidate : row ∈ cache.candidates seq)
    (distinct : (cache.pendingBatch.txseqBlock.puts.map Prod.fst).Nodup)
    (latest : ∀ other ∈ cache.candidates seq, other.1 ≤ row.1)
    (notLater : ∀ stored, cache.inner.blockOfSeq seq = some stored → stored.1 ≤ row.1) :
    cache.blockOfSeq seq = some row := by
  have isBest : latestRow (cache.candidates seq) = some row := by
    cases found : latestRow (cache.candidates seq) with
    | none => exact absurd candidate (latestRow_eq_none.mp found ▸ not_mem_nil)
    | some best =>
      obtain ⟨listed, greatest⟩ := latestRow_eq_some found
      have same : best.1 = row.1 := le_antisymm (latest best listed) (greatest row candidate)
      rw [inj_on_of_nodup_map distinct (mem_candidates.mp listed).1
        (mem_candidates.mp candidate).1 same]
  rw [blockOfSeq, isBest]
  split
  · next best stored same found =>
    cases same
    rw [if_pos (notLater stored (filter_eq_some_iff.mp found).1)]
  · next best same _ => exact same.symm
  · next same => cases same

/-- With a candidate there is always an answer. -/
theorem blockOfSeq_ne_none (candidate : row ∈ cache.candidates seq) :
    cache.blockOfSeq seq ≠ none := by
  rw [blockOfSeq]
  split
  · split <;> simp
  · simp
  · next bare => exact absurd candidate (latestRow_eq_none.mp bare ▸ not_mem_nil)

end BlockOfSeq

end CoinCache

/-! ## What absorbing and flushing do to the rows -/

variable {batch : StoreBatch} {chain : List ChainBlock} {cache : CoinCache InMemoryStore}
  {reference : InMemoryStore}

namespace CoinCache

theorem absorbBlockIndex_kept {blockIndexCache : Map BlockHash BlockIndexEntry}
    {rows : List (BlockHash × BlockIndexEntry)}
    (stored : ∀ row ∈ rows, row.2.status ≠ .headerOnly) :
    (absorbBlockIndex blockIndexCache rows).2 = rows := by
  induction rows generalizing blockIndexCache with
  | nil => rfl
  | cons row rest ih =>
    have notDominated : ∀ dominant, isDominated row.2.status dominant = false := by
      intro dominant
      simp [isDominated, stored row mem_cons_self]
    rw [absorbBlockIndex]
    simp [notDominated, ih fun other member => stored other (mem_cons_of_mem _ member)]

/-- The rows of a cache after a batch was absorbed and waits for the flush. -/
structure Absorbed (batch : StoreBatch) (cache after : CoinCache InMemoryStore) : Prop where
  inner : after.inner = cache.inner
  blockIndexPuts : after.pendingBatch.blockIndexPuts =
    cache.pendingBatch.blockIndexPuts ++ batch.blockIndexPuts
  heightHash : after.pendingBatch.heightHash = cache.pendingBatch.heightHash.merge batch.heightHash
  txseqBlock : after.pendingBatch.txseqBlock = cache.pendingBatch.txseqBlock.merge batch.txseqBlock
  txLoc : after.pendingBatch.txLoc = cache.pendingBatch.txLoc.merge batch.txLoc
  txseqTxid : after.pendingBatch.txseqTxid = cache.pendingBatch.txseqTxid.merge batch.txseqTxid
  heightHashCache : after.heightHashCache = batch.heightHash.apply cache.heightHashCache
  txLocCache : after.txLocCache = batch.txLoc.apply cache.txLocCache

theorem absorbCoins_rows {batch : StoreBatch} {cache : CoinCache InMemoryStore} :
    (cache.absorbCoins batch).inner = cache.inner ∧
      (cache.absorbCoins batch).pendingBatch = cache.pendingBatch ∧
      (cache.absorbCoins batch).heightHashCache = cache.heightHashCache ∧
      (cache.absorbCoins batch).txLocCache = cache.txLocCache := by
  unfold absorbCoins
  split <;> exact ⟨rfl, rfl, rfl, rfl⟩

/-- A batch that moves the tip and the height index waits for the flush whole. -/
theorem absorbBatch_absorbed (cache : CoinCache InMemoryStore) (written : Bool)
    (moves : batch.tip ≠ none) (places : batch.heightHash.puts ≠ [] ∨ batch.heightHash.removes ≠ [])
    (stored : ∀ row ∈ batch.blockIndexPuts, row.2.status ≠ .headerOnly) :
    Absorbed batch cache (cache.absorbBatch written batch) := by
  obtain ⟨inner, pending, heights, located⟩ := absorbCoins_rows
  have kept : ((cache.absorbCoins batch).absorbOverlays batch).2 = batch := by
    simp [absorbOverlays, absorbBlockIndex_kept stored]
  have nonCoin : batch.hasNonCoin = true := by
    rcases places with puts | removes
    · simp [StoreBatch.hasNonCoin, puts]
    · simp [StoreBatch.hasNonCoin, removes]
  have waits : ¬ (batch.coinDirty = 0 ∧ batch.tip = none) := fun quiet => moves quiet.2
  have absorbed : cache.absorbBatch written batch =
      { ((cache.absorbCoins batch).absorbOverlays batch).1 with
        pendingBatch := (cache.absorbCoins batch).pendingBatch.merge batch.nonCoin } := by
    simp only [absorbBatch, kept, nonCoin, waits, if_true, if_false]
    rfl
  rw [absorbed, pending]
  exact ⟨inner, rfl, rfl, rfl, rfl, rfl, congrArg (Writes.apply batch.heightHash) heights,
    congrArg (Writes.apply batch.txLoc) located⟩

/-- The waiting rows of a batch that has nothing to write. -/
structure NoRows (batch : StoreBatch) : Prop where
  blockIndexPuts : batch.blockIndexPuts = []
  heightHash : batch.heightHash = {}
  txseqBlock : batch.txseqBlock = {}
  txLoc : batch.txLoc = {}
  txseqTxid : batch.txseqTxid = {}

theorem noRows_of_no_data (bare : batch.hasData = false) : NoRows batch := by
  simp only [StoreBatch.hasData, Bool.or_eq_false_iff, Bool.not_eq_false', List.isEmpty_iff] at bare
  constructor
  · simp [bare]
  all_goals exact Writes.eq_empty (by simp [bare]) (by simp [bare])

/-- The rows of a cache after a flush that wrote what was waiting. -/
structure Landed (cache after : CoinCache InMemoryStore) : Prop where
  pendingBatch : NoRows after.pendingBatch
  blockIndex : after.inner.blockIndex =
    putAll cache.inner.blockIndex cache.pendingBatch.blockIndexPuts
  heightIndex : after.inner.heightIndex =
    cache.pendingBatch.heightHash.apply cache.inner.heightIndex
  txseqBlock : after.inner.txseqBlock = cache.pendingBatch.txseqBlock.apply cache.inner.txseqBlock
  txLoc : after.inner.txLoc = cache.pendingBatch.txLoc.apply cache.inner.txLoc
  txseqTxid : after.inner.txseqTxid = cache.pendingBatch.txseqTxid.apply cache.inner.txseqTxid
  heightHashCache : after.heightHashCache = cache.heightHashCache
  txLocCache : after.txLocCache = cache.txLocCache

theorem flushInner_landed (cache : CoinCache InMemoryStore) :
    Landed cache (cache.flushInner .written).1 := by
  have drained : NoRows ({} : StoreBatch) := ⟨rfl, rfl, rfl, rfl, rfl⟩
  simp only [flushInner]
  split <;> simp only [promote, startFlush_fields, if_true]
  · exact ⟨drained, rfl, rfl, rfl, rfl, rfl, rfl, rfl⟩
  · next bare =>
    obtain ⟨blockIndexPuts, heightHash, txseqBlock, txLoc, txseqTxid⟩ :=
      noRows_of_no_data (Bool.eq_false_of_not_eq_true bare)
    exact ⟨drained, congrArg (putAll cache.inner.blockIndex) blockIndexPuts.symm,
      congrArg (Writes.apply · cache.inner.heightIndex) heightHash.symm,
      congrArg (Writes.apply · cache.inner.txseqBlock) txseqBlock.symm,
      congrArg (Writes.apply · cache.inner.txLoc) txLoc.symm,
      congrArg (Writes.apply · cache.inner.txseqTxid) txseqTxid.symm, rfl, rfl⟩

/-- The rows of a cache that a flush left as they were. -/
structure Unmoved (cache after : CoinCache InMemoryStore) : Prop where
  inner : after.inner = cache.inner
  blockIndexPuts : after.pendingBatch.blockIndexPuts = cache.pendingBatch.blockIndexPuts
  heightHash : after.pendingBatch.heightHash = cache.pendingBatch.heightHash
  txseqBlock : after.pendingBatch.txseqBlock = cache.pendingBatch.txseqBlock
  txLoc : after.pendingBatch.txLoc = cache.pendingBatch.txLoc
  txseqTxid : after.pendingBatch.txseqTxid = cache.pendingBatch.txseqTxid
  heightHashCache : after.heightHashCache = cache.heightHashCache
  txLocCache : after.txLocCache = cache.txLocCache

theorem flushInner_unmoved {cache : CoinCache InMemoryStore} :
    Unmoved cache (cache.flushInner .handedBack).1 := by
  simp only [flushInner]
  split
  · exact ⟨rfl, append_nil _, Writes.merge_empty _, Writes.merge_empty _,
      Writes.merge_empty _, Writes.merge_empty _, rfl, rfl⟩
  · next bare =>
    obtain ⟨blockIndexPuts, heightHash, txseqBlock, txLoc, txseqTxid⟩ :=
      noRows_of_no_data (Bool.eq_false_of_not_eq_true bare)
    simp only [promote, startFlush_fields, if_true]
    exact ⟨rfl, blockIndexPuts.symm, heightHash.symm, txseqBlock.symm, txLoc.symm, txseqTxid.symm,
      rfl, rfl⟩

end CoinCache

/-! ## Runs beside a reference -/

/-- A step of a run that a condition may restrict. -/
inductive Move where
  | connect (block : ChainBlock)
  | disconnect (batch : StoreBatch)
  | evictHeight (height : Nat)
  | evictTxLoc (txid : Txid)

/-- The states of a cache, of a reference store to which every batch is written
at once, and of the chain, in a run whose moves are all permitted. -/
inductive Followed (permits : CoinCache InMemoryStore → Move → Prop) :
    CoinCache InMemoryStore → InMemoryStore → List ChainBlock → Prop where
  | start {store : InMemoryStore} {chain : List ChainBlock} (represents : Represents store chain) :
    Followed permits { inner := store } store chain
  | connect {cache : CoinCache InMemoryStore} {reference : InMemoryStore} {chain : List ChainBlock}
    {block : ChainBlock} {batch : StoreBatch} (written : Bool)
    (before : Followed permits cache reference chain) (connects : Connects chain block batch)
    (permitted : permits cache (.connect block)) :
    Followed permits (cache.absorbBatch written batch) (reference.writeBatch batch)
      (chain ++ [block])
  | disconnect {cache : CoinCache InMemoryStore} {reference : InMemoryStore}
    {chain : List ChainBlock} {block : ChainBlock} {batch : StoreBatch} (written : Bool)
    (before : Followed permits cache reference (chain ++ [block]))
    (disconnects : Disconnects chain block batch) (permitted : permits cache (.disconnect batch)) :
    Followed permits (cache.absorbBatch written batch) (reference.writeBatch batch) chain
  | flush {cache : CoinCache InMemoryStore} {reference : InMemoryStore} {chain : List ChainBlock}
    (before : Followed permits cache reference chain) :
    Followed permits (cache.flushInner .written).1 reference chain
  | failedFlush {cache : CoinCache InMemoryStore} {reference : InMemoryStore}
    {chain : List ChainBlock} (before : Followed permits cache reference chain) :
    Followed permits (cache.flushInner .handedBack).1 reference chain
  | evictHeight {cache : CoinCache InMemoryStore} {reference : InMemoryStore}
    {chain : List ChainBlock} (height : Nat) (before : Followed permits cache reference chain)
    (permitted : permits cache (.evictHeight height)) :
    Followed permits (cache.evictHeight height) reference chain
  | evictTxLoc {cache : CoinCache InMemoryStore} {reference : InMemoryStore}
    {chain : List ChainBlock} (txid : Txid) (before : Followed permits cache reference chain)
    (permitted : permits cache (.evictTxLoc txid)) :
    Followed permits (cache.evictTxLoc txid) reference chain

theorem Connects.absorbed {block : ChainBlock} (connects : Connects chain block batch)
    (cache : CoinCache InMemoryStore) (written : Bool) :
    CoinCache.Absorbed batch cache (cache.absorbBatch written batch) := by
  apply CoinCache.absorbBatch_absorbed
  · simp [connects.tip]
  · simp [connects.height]
  · simp [connects.entry, connects.valid]

theorem Disconnects.absorbed {block : ChainBlock} (disconnects : Disconnects chain block batch)
    (cache : CoinCache InMemoryStore) (written : Bool) :
    CoinCache.Absorbed batch cache (cache.absorbBatch written batch) := by
  apply CoinCache.absorbBatch_absorbed
  · exact disconnects.tip
  · simp [disconnects.height]
  · simp [disconnects.entry]

/-! ### What every run keeps -/

/-- The backing store with the waiting rows written to it is the reference. -/
structure Mirrors (cache : CoinCache InMemoryStore) (reference : InMemoryStore)
    (chain : List ChainBlock) : Prop where
  shown : Represents reference chain
  blockIndex : putAll cache.inner.blockIndex cache.pendingBatch.blockIndexPuts =
    reference.blockIndex
  heightIndex : cache.pendingBatch.heightHash.apply cache.inner.heightIndex = reference.heightIndex
  txseqBlock : cache.pendingBatch.txseqBlock.apply cache.inner.txseqBlock = reference.txseqBlock
  txLoc : cache.pendingBatch.txLoc.apply cache.inner.txLoc = reference.txLoc
  txseqTxid : cache.pendingBatch.txseqTxid.apply cache.inner.txseqTxid = reference.txseqTxid
  firstsTidy : cache.pendingBatch.txseqBlock.Tidy
  namedTidy : cache.pendingBatch.txseqTxid.Tidy

namespace Mirrors

variable {after : CoinCache InMemoryStore} {block : ChainBlock}

/-- A waiting put of tidy writes is a row of the reference. -/
theorem lookup_of_put {κ ν : Type} [DecidableEq κ] {writes : Writes κ ν} {stored shown : Map κ ν}
    (applied : writes.apply stored = shown) (tidy : writes.Tidy) {key : κ}
    (put : key ∈ writes.puts.map Prod.fst) : ∃ row, shown.lookup key = some row := by
  obtain ⟨row, listed, rfl⟩ := mem_map.mp put
  refine ⟨row.2, ?_⟩
  rw [← applied, tidy.lookup_apply, (lastPut_eq_some_iff tidy.distinct).mpr listed, some_or]

/-- A batch absorbed by the cache and written to the reference. -/
theorem absorb (mirrors : Mirrors cache reference chain)
    (absorbed : CoinCache.Absorbed batch cache after) {longer : List ChainBlock}
    (shown : Represents (reference.writeBatch batch) longer)
    (firstsTidy : (cache.pendingBatch.txseqBlock.merge batch.txseqBlock).Tidy)
    (namedTidy : (cache.pendingBatch.txseqTxid.merge batch.txseqTxid).Tidy) :
    Mirrors after (reference.writeBatch batch) longer := by
  constructor
  · exact shown
  · rw [absorbed.inner, absorbed.blockIndexPuts, putAll_append, mirrors.blockIndex]
    rfl
  · rw [absorbed.inner, absorbed.heightHash, Writes.apply_merge, mirrors.heightIndex]
    rfl
  · rw [absorbed.inner, absorbed.txseqBlock, Writes.apply_merge, mirrors.txseqBlock]
    rfl
  · rw [absorbed.inner, absorbed.txLoc, Writes.apply_merge, mirrors.txLoc]
    rfl
  · rw [absorbed.inner, absorbed.txseqTxid, Writes.apply_merge, mirrors.txseqTxid]
    rfl
  · rwa [absorbed.txseqBlock]
  · rwa [absorbed.txseqTxid]

theorem connect (mirrors : Mirrors cache reference chain) (connects : Connects chain block batch)
    (written : Bool) :
    Mirrors (cache.absorbBatch written batch) (reference.writeBatch batch) (chain ++ [block]) := by
  apply mirrors.absorb (connects.absorbed cache written) (mirrors.shown.connect connects)
  · apply mirrors.firstsTidy.merge_puts
    · rw [connects.first]
    · simp [connects.first]
    · -- The new block begins where the chain ends, after every waiting block.
      intro first new old
      obtain ⟨height, row⟩ := lookup_of_put mirrors.txseqBlock mirrors.firstsTidy old
      obtain ⟨inside, rfl⟩ := (mirrors.shown.firsts _ _).mp row
      have := firstOf_lt_txCount mirrors.shown.nonempty inside
      simp only [connects.first, map_cons, map_nil, mem_singleton] at new
      omega
  · apply mirrors.namedTidy.merge_puts
    · rw [connects.named]
    · rw [connects.keys_named]
      exact nodup_range'
    · intro seq new old
      obtain ⟨txid, row⟩ := lookup_of_put mirrors.txseqTxid mirrors.namedTidy old
      have := mirrors.shown.named seq txid row
      rw [connects.keys_named, mem_range'_1] at new
      omega

theorem disconnect (mirrors : Mirrors cache reference (chain ++ [block]))
    (disconnects : Disconnects chain block batch) (written : Bool) :
    Mirrors (cache.absorbBatch written batch) (reference.writeBatch batch) chain := by
  apply mirrors.absorb (disconnects.absorbed cache written) (mirrors.shown.disconnect disconnects)
  · exact mirrors.firstsTidy.merge_removes (by rw [disconnects.first])
  · exact mirrors.namedTidy.merge_removes disconnects.unnamed

/-- After a flush the backing store holds the rows of the reference. -/
theorem sameRows (mirrors : Mirrors cache reference chain)
    (landed : CoinCache.Landed cache after) : SameRows after.inner reference :=
  ⟨landed.heightIndex.trans mirrors.heightIndex, landed.blockIndex.trans mirrors.blockIndex,
    landed.txseqBlock.trans mirrors.txseqBlock, landed.txLoc.trans mirrors.txLoc,
    landed.txseqTxid.trans mirrors.txseqTxid⟩

theorem of_noRows (rows : CoinCache.NoRows cache.pendingBatch)
    (same : SameRows cache.inner reference)
    (shown : Represents reference chain) : Mirrors cache reference chain := by
  obtain ⟨blockIndexPuts, heightHash, txseqBlock, txLoc, txseqTxid⟩ := rows
  constructor
  · exact shown
  · rw [blockIndexPuts]
    exact same.blockIndex
  · rw [heightHash]
    exact same.heightIndex
  · rw [txseqBlock]
    exact same.txseqBlock
  · rw [txLoc]
    exact same.txLoc
  · rw [txseqTxid]
    exact same.txseqTxid
  · rw [txseqBlock]
    exact .empty
  · rw [txseqTxid]
    exact .empty

theorem unmoved (mirrors : Mirrors cache reference chain)
    (unmoved : CoinCache.Unmoved cache after) : Mirrors after reference chain := by
  obtain ⟨shown, blockIndex, heightIndex, txseqBlock, txLoc, txseqTxid, firstsTidy, namedTidy⟩ :=
    mirrors
  constructor
  · exact shown
  · rwa [unmoved.inner, unmoved.blockIndexPuts]
  · rwa [unmoved.inner, unmoved.heightHash]
  · rwa [unmoved.inner, unmoved.txseqBlock]
  · rwa [unmoved.inner, unmoved.txLoc]
  · rwa [unmoved.inner, unmoved.txseqTxid]
  · rwa [unmoved.txseqBlock]
  · rwa [unmoved.txseqTxid]

end Mirrors

/-- Every run mirrors the reference, whatever its moves. -/
theorem Followed.mirrors {permits : CoinCache InMemoryStore → Move → Prop}
    (run : Followed permits cache reference chain) : Mirrors cache reference chain := by
  induction run with
  | start represents =>
    exact .of_noRows ⟨rfl, rfl, rfl, rfl, rfl⟩ ⟨rfl, rfl, rfl, rfl, rfl⟩ represents
  | connect written _ connects _ ih =>
    exact ih.connect connects written
  | disconnect written _ disconnects _ ih =>
    exact ih.disconnect disconnects written
  | @flush cache _ _ _ ih =>
    have landed := CoinCache.flushInner_landed cache
    exact .of_noRows landed.pendingBatch (ih.sameRows landed) ih.shown
  | failedFlush _ ih =>
    exact ih.unmoved (CoinCache.flushInner_unmoved)
  | evictHeight height _ _ ih => exact { ih with }
  | evictTxLoc txid _ _ ih => exact { ih with }

/-- Ordinals resolve to transactions as in the reference, in every run. -/
theorem Followed.txidsOfSeqs_eq {permits : CoinCache InMemoryStore → Move → Prop}
    (run : Followed permits cache reference chain) (seqs : List Nat) :
    cache.txidsOfSeqs seqs = reference.txidsOfSeqs seqs := by
  have mirrors := run.mirrors
  have paired : seqs.zip (cache.inner.txidsOfSeqs seqs) =
      seqs.map fun seq => (seq, cache.inner.txseqTxid.lookup seq) := by
    simpa [InMemoryStore.txidsOfSeqs] using
      zip_map' (f := id) (g := cache.inner.txseqTxid.lookup) (l := seqs)
  rw [CoinCache.txidsOfSeqs, paired, List.map_map]
  apply map_congr_left
  intro seq _
  rw [← mirrors.txseqTxid, mirrors.namedTidy.lookup_apply, Function.comp_apply]
  cases lastPut seq cache.pendingBatch.txseqTxid.puts with
  | none => rfl
  | some txid => rfl

/-! ### What careful runs keep -/

/-- A connect puts no transaction that has a waiting row; a disconnect removes no
row that the backing store holds; a row is evicted only if the backing store
holds it. -/
def Careful (cache : CoinCache InMemoryStore) : Move → Prop
  | .connect block => ∀ txid ∈ block.txids, txid ∉ cache.pendingBatch.txLoc.puts.map Prod.fst
  | .disconnect batch =>
    (∀ height ∈ batch.heightHash.removes, cache.inner.heightIndex.lookup height = none) ∧
      ∀ txid ∈ batch.txLoc.removes, cache.inner.txLoc.lookup txid = none
  | .evictHeight height => ∀ hash, cache.heightHashCache.lookup height = some hash →
    cache.inner.heightIndex.lookup height = some hash
  | .evictTxLoc txid => ∀ seq, cache.txLocCache.lookup txid = some seq →
    cache.inner.txLoc.lookup txid = some seq

/-- A cache of recent rows in front of a family: its rows are rows of the
reference, and where it has none the backing store's row is the reference's. -/
structure Fronts {κ ν : Type} [DecidableEq κ] (recent stored shown : Map κ ν) : Prop where
  held : ∀ key row, recent.lookup key = some row → shown.lookup key = some row
  missed : ∀ key, recent.lookup key = none → stored.lookup key = shown.lookup key

namespace Fronts

variable {κ ν : Type} [DecidableEq κ] {recent stored shown : Map κ ν}

/-- Reading the recent rows first, then the backing store. -/
theorem lookup_eq (fronts : Fronts recent stored shown) {key : κ} :
    (recent.lookup key).or (stored.lookup key) = shown.lookup key := by
  cases found : recent.lookup key with
  | none => exact fronts.missed key found
  | some row => exact (fronts.held key row found).symm

/-- Writes that reach the recent rows and the reference. -/
theorem apply (fronts : Fronts recent stored shown) (writes : Writes κ ν)
    (unstored : ∀ key ∈ writes.removes, stored.lookup key = none) :
    Fronts (writes.apply recent) stored (writes.apply shown) := by
  constructor
  · exact fun key row found => writes.apply_mono fronts.held found
  · intro key absent
    rw [Writes.lookup_apply] at absent ⊢
    split at absent
    · next removed => rw [if_pos removed, unstored key removed]
    · next kept =>
      obtain ⟨unput, unheld⟩ := or_eq_none_iff.mp absent
      rw [if_neg kept, unput, none_or, fronts.missed key unheld]

theorem refl (recent : Map κ ν) {stored shown : Map κ ν} (same : stored = shown)
    (held : ∀ key row, recent.lookup key = some row → shown.lookup key = some row) :
    Fronts recent stored shown :=
  ⟨held, fun key _ => by rw [same]⟩

/-- A recent row is forgotten that the backing store holds. -/
theorem erase (fronts : Fronts recent stored shown) {key : κ}
    (backed : ∀ row, recent.lookup key = some row → stored.lookup key = some row) :
    Fronts (recent.erase key) stored shown := by
  constructor
  · intro other row found
    rw [lookup_erase] at found
    split at found
    · cases found
    · exact fronts.held other row found
  · intro other absent
    by_cases same : key = other
    · subst same
      cases found : recent.lookup key with
      | none => exact fronts.missed key found
      | some row => rw [backed row found, fronts.held key row found]
    · rw [lookup_erase, if_neg same] at absent
      exact fronts.missed other absent

end Fronts

/-- The backing store describes the chain up to some block, and the recent rows
the rest. -/
structure Current (cache : CoinCache InMemoryStore) (reference : InMemoryStore)
    (flushed chain : List ChainBlock) : Prop where
  stored : Represents cache.inner flushed
  initial : flushed <+: chain
  heights : Fronts cache.heightHashCache cache.inner.heightIndex reference.heightIndex
  located : Fronts cache.txLocCache cache.inner.txLoc reference.txLoc
  locatedTidy : cache.pendingBatch.txLoc.Tidy

namespace Current

variable {after : CoinCache InMemoryStore} {flushed : List ChainBlock} {block : ChainBlock}

/-- A batch absorbed by the cache and written to the reference. -/
theorem absorb (current : Current cache reference flushed chain)
    (absorbed : CoinCache.Absorbed batch cache after) {longer : List ChainBlock}
    (initial : flushed <+: longer)
    (heights : ∀ height ∈ batch.heightHash.removes, cache.inner.heightIndex.lookup height = none)
    (located : ∀ txid ∈ batch.txLoc.removes, cache.inner.txLoc.lookup txid = none)
    (tidy : (cache.pendingBatch.txLoc.merge batch.txLoc).Tidy) :
    Current after (reference.writeBatch batch) flushed longer := by
  constructor
  · rw [absorbed.inner]
    exact current.stored
  · exact initial
  · rw [absorbed.inner, absorbed.heightHashCache]
    exact current.heights.apply batch.heightHash heights
  · rw [absorbed.inner, absorbed.txLocCache]
    exact current.located.apply batch.txLoc located
  · rwa [absorbed.txLoc]

theorem connect (current : Current cache reference flushed chain)
    (connects : Connects chain block batch) (careful : Careful cache (.connect block))
    (written : Bool) :
    Current (cache.absorbBatch written batch) (reference.writeBatch batch) flushed
      (chain ++ [block]) := by
  apply current.absorb (connects.absorbed cache written)
  · exact current.initial.trans (prefix_append _ _)
  · simp [connects.height]
  · simp [connects.located]
  · apply current.locatedTidy.merge_puts
    · rw [connects.located]
    · rw [connects.keys_located]
      exact connects.distinct
    · rw [connects.keys_located]
      exact careful

/-- The backing store has no row at the height of the disconnected block, so it
describes no more than the chain below. -/
theorem disconnect (current : Current cache reference flushed (chain ++ [block]))
    (disconnects : Disconnects chain block batch) (careful : Careful cache (.disconnect batch))
    (written : Bool) :
    Current (cache.absorbBatch written batch) (reference.writeBatch batch) flushed chain := by
  obtain ⟨heights, located⟩ := careful
  apply current.absorb (disconnects.absorbed cache written) _ heights located
  · exact current.locatedTidy.merge_removes disconnects.unlocated
  · have unstored := heights chain.length (by simp [disconnects.height])
    rw [current.stored.heights, map_eq_none_iff, getElem?_eq_none_iff] at unstored
    exact prefix_of_prefix_length_le current.initial (prefix_append _ _) unstored

theorem flush (current : Current cache reference flushed chain)
    (mirrors : Mirrors cache reference chain) (landed : CoinCache.Landed cache after) :
    Current after reference chain chain := by
  have same := mirrors.sameRows landed
  constructor
  · exact mirrors.shown.congr same
  · exact prefix_rfl
  · rw [landed.heightHashCache]
    exact .refl _ same.heightIndex current.heights.held
  · rw [landed.txLocCache]
    exact .refl _ same.txLoc current.located.held
  · rw [landed.pendingBatch.txLoc]
    exact .empty

theorem unmoved (current : Current cache reference flushed chain)
    (unmoved : CoinCache.Unmoved cache after) : Current after reference flushed chain := by
  obtain ⟨stored, initial, heights, located, locatedTidy⟩ := current
  constructor
  · rwa [unmoved.inner]
  · exact initial
  · rwa [unmoved.inner, unmoved.heightHashCache]
  · rwa [unmoved.inner, unmoved.txLocCache]
  · rwa [unmoved.txLoc]

end Current

/-- A careful run keeps the backing store and the recent rows current. -/
theorem Followed.current (run : Followed Careful cache reference chain) :
    ∃ flushed, Current cache reference flushed chain := by
  induction run with
  | @start store chain represents =>
    refine ⟨chain, represents, prefix_rfl, ?_, ?_, .empty⟩
    · exact .refl _ rfl (by simp)
    · exact .refl _ rfl (by simp)
  | connect written _ connects careful ih =>
    obtain ⟨flushed, current⟩ := ih
    exact ⟨flushed, current.connect connects careful written⟩
  | disconnect written _ disconnects careful ih =>
    obtain ⟨flushed, current⟩ := ih
    exact ⟨flushed, current.disconnect disconnects careful written⟩
  | @flush cache reference chain before ih =>
    obtain ⟨flushed, current⟩ := ih
    exact ⟨chain, current.flush before.mirrors (CoinCache.flushInner_landed cache)⟩
  | @failedFlush cache reference chain before ih =>
    obtain ⟨flushed, current⟩ := ih
    exact ⟨flushed, current.unmoved (CoinCache.flushInner_unmoved)⟩
  | evictHeight height _ careful ih =>
    obtain ⟨flushed, current⟩ := ih
    exact ⟨flushed, { current with heights := current.heights.erase careful }⟩
  | evictTxLoc txid _ careful ih =>
    obtain ⟨flushed, current⟩ := ih
    exact ⟨flushed, { current with located := current.located.erase careful }⟩

namespace Current

variable {flushed : List ChainBlock}

theorem getBlockHashByHeight_eq (current : Current cache reference flushed chain) (height : Nat) :
    cache.getBlockHashByHeight height = reference.getBlockHashByHeight height := by
  unfold CoinCache.getBlockHashByHeight InMemoryStore.getBlockHashByHeight
  rw [← current.heights.lookup_eq]
  cases cache.heightHashCache.lookup height with
  | none => rfl
  | some hash => rfl

theorem getTxSeq_eq (current : Current cache reference flushed chain)
    (mirrors : Mirrors cache reference chain) (txid : Txid) :
    cache.getTxSeq txid = reference.getTxSeq txid := by
  have tidy := current.locatedTidy
  rw [CoinCache.getTxSeq, CoinCache.pendingTxLoc, firstPut_eq_lastPut tidy.distinct]
  have flushedSeq : cache.flushedTxSeq txid = reference.getTxSeq txid := by
    rw [CoinCache.flushedTxSeq, InMemoryStore.getTxSeq, InMemoryStore.getTxSeq,
      ← current.located.lookup_eq]
    cases cache.txLocCache.lookup txid with
    | none => rfl
    | some seq => rfl
  have shown : reference.getTxSeq txid = (lastPut txid cache.pendingBatch.txLoc.puts).or
      (if txid ∈ cache.pendingBatch.txLoc.removes then none
        else cache.inner.txLoc.lookup txid) := by
    rw [InMemoryStore.getTxSeq, ← mirrors.txLoc, tidy.lookup_apply]
  cases put : lastPut txid cache.pendingBatch.txLoc.puts with
  | some seq => rw [shown, put, some_or]
  | none =>
    by_cases removed : txid ∈ cache.pendingBatch.txLoc.removes
    · rw [shown, put]
      simp [removed]
    · simp [removed, flushedSeq]

/-- The rows waiting for the flush are rows of the chain. -/
theorem first_of_put (mirrors : Mirrors cache reference chain) {row : Nat × Nat}
    (waiting : row ∈ cache.pendingBatch.txseqBlock.puts) :
    row.2 < chain.length ∧ row.1 = firstOf chain row.2 := by
  apply (mirrors.shown.firsts _ _).mp
  have put := (lastPut_eq_some_iff mirrors.firstsTidy.distinct).mpr waiting
  rw [← mirrors.txseqBlock, mirrors.firstsTidy.lookup_apply, put, some_or]

section

variable (current : Current cache reference flushed chain)
include current

variable {height : Nat}

/-- The backing store's answer for an ordinal that a block of the chain covers. -/
theorem inner_blockOfSeq {seq : Nat} (begun : firstOf chain height ≤ seq)
    (unfinished : seq < firstOf chain (height + 1)) :
    cache.inner.blockOfSeq seq =
      if height < flushed.length then some (firstOf chain height, height) else none := by
  obtain ⟨rest, rfl⟩ := current.initial
  split
  · next early =>
    rw [firstOf_append early.le] at begun ⊢
    rw [firstOf_append early] at unfinished
    exact current.stored.blockOfSeq_of_covering early begun unfinished
  · next late =>
    apply current.stored.blockOfSeq_of_past
    calc txCount flushed = firstOf (flushed ++ rest) flushed.length := by
          rw [firstOf_append le_rfl, firstOf_length]
      _ ≤ firstOf (flushed ++ rest) height := firstOf_mono _ (by omega)
      _ ≤ seq := begun

/-- An ordinal inside the chain lies in the block that covers it, whether that
block waits for the flush or not. -/
theorem blockOfSeq_of_covering (mirrors : Mirrors cache reference chain) {seq : Nat}
    (inside : height < chain.length) (begun : firstOf chain height ≤ seq)
    (unfinished : seq < firstOf chain (height + 1)) :
    cache.blockOfSeq seq = some (firstOf chain height, height) := by
  have tidy := mirrors.firstsTidy
  have stored := current.inner_blockOfSeq begun unfinished
  have latest : ∀ candidate ∈ cache.candidates seq, candidate.1 ≤ firstOf chain height := by
    intro candidate listed
    obtain ⟨waiting, early, -⟩ := CoinCache.mem_candidates.mp listed
    obtain ⟨-, first⟩ := first_of_put mirrors waiting
    rw [first]
    apply firstOf_mono
    by_contra later
    have := firstOf_mono chain (show height + 1 ≤ candidate.2 by omega)
    omega
  have row := (mirrors.shown.firsts _ _).mpr ⟨inside, rfl⟩
  rw [← mirrors.txseqBlock, tidy.lookup_apply] at row
  rcases or_eq_some_iff.mp row with put | ⟨unput, held⟩
  · have waiting := mem_of_lastPut put
    have kept := tidy.disjoint _ (mem_map_of_mem waiting)
    apply CoinCache.blockOfSeq_of_candidate (CoinCache.mem_candidates.mpr ⟨waiting, begun, kept⟩)
      tidy.distinct latest
    intro answer found
    rw [stored] at found
    split at found
    · cases found
      rfl
    · cases found
  · split at held
    · cases held
    · next kept =>
      have early := ((current.stored.firsts _ _).mp held).1
      rw [if_pos early] at stored
      apply CoinCache.blockOfSeq_of_stored stored kept
      intro candidate listed
      have waiting := (CoinCache.mem_candidates.mp listed).1
      have other : candidate.1 ≠ firstOf chain height := fun same =>
        lastPut_eq_none.mp unput (same ▸ mem_map_of_mem waiting)
      exact lt_of_le_of_ne (latest candidate listed) other

/-- Past the end of the chain there is an answer exactly if a block waits for
the flush. -/
theorem blockOfSeq_of_past
    (mirrors : Mirrors cache reference chain) {seq : Nat} (past : txCount chain ≤ seq) :
    cache.blockOfSeq seq = none ↔ cache.pendingBatch.txseqBlock.puts = [] := by
  constructor
  · intro unanswered
    by_contra waits
    obtain ⟨row, waiting⟩ := exists_mem_of_ne_nil _ waits
    obtain ⟨inside, first⟩ := first_of_put mirrors waiting
    have below := firstOf_lt_txCount mirrors.shown.nonempty inside
    have kept := mirrors.firstsTidy.disjoint _ (mem_map_of_mem waiting)
    exact CoinCache.blockOfSeq_ne_none
      (CoinCache.mem_candidates.mpr ⟨waiting, by omega, kept⟩) unanswered
  · intro noneWaits
    obtain ⟨rest, rfl⟩ := current.initial
    rw [txCount_append] at past
    have unstored := current.stored.blockOfSeq_of_past (show txCount flushed ≤ seq by omega)
    simp [CoinCache.blockOfSeq, CoinCache.candidates, noneWaits, unstored, CoinCache.latestRow]

/-- A transaction's block, through the recent ordinals or the backing store. -/
theorem getTxLocation_eq (mirrors : Mirrors cache reference chain) (txid : Txid) :
    cache.getTxLocation txid = reference.getTxLocation txid := by
  cases recent : cache.txLocCache.lookup txid with
  | some seq =>
    have located := current.located.held txid seq recent
    obtain ⟨height, inside, begun, unfinished⟩ :=
      exists_covering (mirrors.shown.located txid seq located).lt_txCount
    simp [CoinCache.getTxLocation, recent, InMemoryStore.getTxLocation, InMemoryStore.getTxSeq,
      located, current.blockOfSeq_of_covering mirrors inside begun unfinished,
      mirrors.shown.blockOfSeq_of_covering inside begun unfinished, current.getBlockHashByHeight_eq]
  | none =>
    have same := current.located.missed txid recent
    cases held : cache.inner.txLoc.lookup txid with
    | none =>
      simp [CoinCache.getTxLocation, recent, InMemoryStore.getTxLocation, InMemoryStore.getTxSeq,
        ← same, held]
    | some seq =>
      obtain ⟨height, early, begun, unfinished⟩ :=
        exists_covering (current.stored.located txid seq held).lt_txCount
      obtain ⟨rest, rfl⟩ := current.initial
      have stored := current.stored.blockOfSeq_of_covering early begun unfinished
      have shown : reference.blockOfSeq seq = some (firstOf (flushed ++ rest) height, height) := by
        apply mirrors.shown.blockOfSeq_of_covering
        · simp
          omega
        · rwa [firstOf_append early.le]
        · rwa [firstOf_append early]
      have hash : cache.inner.getBlockHashByHeight height =
          reference.getBlockHashByHeight height := by
        rw [InMemoryStore.getBlockHashByHeight, InMemoryStore.getBlockHashByHeight,
          current.stored.heights, mirrors.shown.heights, getElem?_append_left early]
      simp [CoinCache.getTxLocation, recent, InMemoryStore.getTxLocation, InMemoryStore.getTxSeq,
        ← same, held, stored, shown, hash]

end

end Current

/-! ## The reads agree in careful runs -/

/-- In a careful run every read of the index rows through the cache is the read
of the reference, except that past the end of the chain `blockOfSeq` answers
as long as a block waits for the flush. -/
theorem careful_reads_agree {cache : CoinCache InMemoryStore} {reference : InMemoryStore}
    {chain : List ChainBlock} (run : Followed Careful cache reference chain) :
    (∀ height, cache.getBlockHashByHeight height = reference.getBlockHashByHeight height) ∧
    (∀ txid, cache.getTxLocation txid = reference.getTxLocation txid) ∧
    (∀ txid, cache.getTxSeq txid = reference.getTxSeq txid) ∧
    (∀ seqs, cache.txidsOfSeqs seqs = reference.txidsOfSeqs seqs) ∧
    ∀ seq, cache.blockOfSeq seq = reference.blockOfSeq seq ↔
      seq < txCount chain ∨ cache.pendingBatch.txseqBlock.puts = [] := by
  have mirrors := run.mirrors
  obtain ⟨flushed, current⟩ := run.current
  refine ⟨current.getBlockHashByHeight_eq, current.getTxLocation_eq mirrors,
    current.getTxSeq_eq mirrors, run.txidsOfSeqs_eq, fun seq => ?_⟩
  by_cases inChain : seq < txCount chain
  · obtain ⟨height, inside, begun, unfinished⟩ := exists_covering inChain
    rw [current.blockOfSeq_of_covering mirrors inside begun unfinished,
      mirrors.shown.blockOfSeq_of_covering inside begun unfinished]
    simp [inChain]
  · have past : txCount chain ≤ seq := by omega
    rw [mirrors.shown.blockOfSeq_of_past past, current.blockOfSeq_of_past mirrors past]
    simp [inChain]

/-- The condition on disconnects cannot be dropped: a height whose row the
backing store holds still resolves after its block was disconnected. -/
theorem getBlockHashByHeight_of_disconnect {block : ChainBlock}
    (disconnects : Disconnects chain block batch) (written : Bool) {hash : BlockHash}
    (stored : cache.inner.heightIndex.lookup chain.length = some hash) :
    (cache.absorbBatch written batch).getBlockHashByHeight chain.length = some hash ∧
      (reference.writeBatch batch).getBlockHashByHeight chain.length = none := by
  have absorbed := disconnects.absorbed cache written
  constructor
  · simp [CoinCache.getBlockHashByHeight, absorbed.heightHashCache, absorbed.inner,
      disconnects.height, Writes.lookup_apply, InMemoryStore.getBlockHashByHeight, stored]
  · simp [InMemoryStore.getBlockHashByHeight, InMemoryStore.writeBatch, disconnects.height,
      Writes.lookup_apply]

namespace OverlaySample

/-- A block with one transaction, named by a byte. -/
def block (byte : UInt8) : ChainBlock where
  hash := Hash256.repeated byte
  entry :=
    { header := ⟨1, Hash256.repeated 0, Hash256.repeated byte, 0, 0, 0⟩, height := 0,
      status := .valid, numTx := 1, fileNumber := 0, dataPos := 0, chainwork := 0 }
  txids := [Hash256.repeated (byte + 0x10)]

def connecting (chain : List ChainBlock) (block : ChainBlock) : StoreBatch where
  tip := some block.hash
  heightHash := ⟨[(chain.length, block.hash)], []⟩
  blockIndexPuts := [(block.hash, block.entry)]
  txseqBlock := ⟨[(txCount chain, chain.length)], []⟩
  txLoc := ⟨block.txids.zipIdx (txCount chain), []⟩
  txseqTxid := ⟨(block.txids.zipIdx (txCount chain)).map Prod.swap, []⟩

def disconnecting (chain : List ChainBlock) (block : ChainBlock) : StoreBatch where
  tip := some (Hash256.repeated 0)
  heightHash := ⟨[], [chain.length]⟩
  txseqBlock := ⟨[], [txCount chain]⟩
  txLoc := ⟨[], block.txids⟩
  txseqTxid := ⟨[], List.range' (txCount chain) block.txids.length⟩

theorem connects (chain : List ChainBlock) (byte : UInt8)
    (unnamed : ∀ other ∈ chain, other.hash ≠ (block byte).hash) :
    Connects chain (block byte) (connecting chain (block byte)) :=
  ⟨rfl, rfl, rfl, rfl, rfl, by simp [block], by simp [block], unnamed, rfl, rfl, rfl⟩

theorem disconnects (chain : List ChainBlock) (block : ChainBlock) :
    Disconnects chain block (disconnecting chain block) :=
  ⟨by simp [disconnecting], rfl, rfl, rfl, rfl, fun _ => .rfl, rfl, fun _ => List.mem_range'_1⟩

def connectFirst : StoreBatch := connecting [] (block 1)

def connectSecond : StoreBatch := connecting [block 1] (block 2)

def disconnectSecond : StoreBatch := disconnecting [block 1] (block 2)

def shownFirst : InMemoryStore := InMemoryStore.writeBatch {} connectFirst

def shownBoth : InMemoryStore := shownFirst.writeBatch connectSecond

def empty : CoinCache InMemoryStore := { inner := {} }

/-- The first block waits for the flush. -/
def waiting : CoinCache InMemoryStore := empty.absorbBatch true connectFirst

/-- The first block was flushed, and the second waits for the flush. -/
def extended : CoinCache InMemoryStore :=
  (waiting.flushInner .written).1.absorbBatch true connectSecond

/-- Both blocks were flushed, and the second was disconnected. -/
def reverted : CoinCache InMemoryStore :=
  (extended.flushInner .written).1.absorbBatch true disconnectSecond

theorem represents_empty : Represents {} [] := by
  constructor <;> simp

section Runs

variable {permits : CoinCache InMemoryStore → Move → Prop}

theorem followed_waiting (first : permits empty (.connect (block 1))) :
    Followed permits waiting shownFirst [block 1] :=
  .connect true (.start represents_empty) (connects [] 1 (by simp)) first

theorem followed_extended (first : permits empty (.connect (block 1)))
    (second : permits (waiting.flushInner .written).1 (.connect (block 2))) :
    Followed permits extended shownBoth [block 1, block 2] := by
  have distinct : ∀ other ∈ [block 1], other.hash ≠ (block 2).hash := by decide +kernel
  exact .connect true (followed_waiting first).flush (connects [block 1] 2 distinct) second

end Runs

end OverlaySample

open OverlaySample

/-- A block that waits for the flush and its transaction resolve as in the
reference. -/
theorem careful_reads_agree_extended :
    extended.getBlockHashByHeight 1 = some (Hash256.repeated 2) ∧
    extended.getTxLocation (Hash256.repeated 0x12) = some (Hash256.repeated 2) ∧
    extended.blockOfSeq 1 = some (1, 1) := by
  have run : Followed Careful extended shownBoth [block 1, block 2] :=
    followed_extended (by simp only [Careful]; decide +kernel)
      (by simp only [Careful]; decide +kernel)
  obtain ⟨heights, locations, -, -, ordinals⟩ := careful_reads_agree run
  refine ⟨?_, ?_, ?_⟩
  · rw [heights]
    decide +kernel
  · rw [locations]
    decide +kernel
  · rw [(ordinals 1).mpr (.inl (by decide +kernel))]
    decide +kernel

/-- A block that was flushed and then disconnected still resolves at its height,
and so does its transaction; and an ordinal past the end of the chain resolves
while the last block waits for the flush. -/
theorem disconnected_block_still_resolves :
    Followed (fun _ _ => True) reverted
      (shownBoth.writeBatch disconnectSecond)
      [block 1] ∧
    reverted.getBlockHashByHeight 1 = some (Hash256.repeated 2) ∧
    (shownBoth.writeBatch disconnectSecond).getBlockHashByHeight 1 = none ∧
    reverted.getTxLocation (Hash256.repeated 0x12) = some (Hash256.repeated 2) ∧
    (shownBoth.writeBatch disconnectSecond).getTxLocation (Hash256.repeated 0x12) = none ∧
    Followed (fun _ _ => True) waiting shownFirst [block 1] ∧
    waiting.blockOfSeq 1 = some (0, 0) ∧
    shownFirst.blockOfSeq 1 = none := by
  have extended : Followed (fun _ _ => True) extended shownBoth ([block 1] ++ [block 2]) :=
    followed_extended trivial trivial
  refine ⟨?_, ?_, ?_, ?_, ?_, followed_waiting trivial, ?_, ?_⟩
  · exact extended.flush.disconnect true (disconnects _ _) trivial
  all_goals decide +kernel

end Satd.Storage
