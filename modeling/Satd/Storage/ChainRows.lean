import Satd.Storage.Store

/-!
# Chains and the rows that describe them

Every transaction of the chain has an ordinal, counted from the first block on.
The rows of a store say which block stands at a height, with which ordinal it
begins and at which ordinal a transaction stands. A batch that connects a block
or disconnects the last one takes rows that describe a chain to rows that
describe the longer or the shorter chain.
-/

namespace Satd.Storage

open KeyedMap Satd.Bitcoin List Option

/-! ## Ordinals -/

/-- A block of the chain: its hash, its index entry and its transactions. -/
structure ChainBlock where
  hash : BlockHash
  entry : BlockIndexEntry
  txids : List Txid

/-- The number of transactions of a chain. -/
def txCount (chain : List ChainBlock) : Nat := (chain.map fun block => block.txids.length).sum

/-- The first ordinal of the block at a height. -/
def firstOf (chain : List ChainBlock) (height : Nat) : Nat := txCount (chain.take height)

@[simp] theorem txCount_append (chain rest : List ChainBlock) :
    txCount (chain ++ rest) = txCount chain + txCount rest := by
  simp [txCount]

@[simp] theorem txCount_singleton (block : ChainBlock) : txCount [block] = block.txids.length := by
  simp [txCount]

variable {chain : List ChainBlock} {height seq : Nat} {block : ChainBlock} {txid : Txid}
  {store : InMemoryStore}

variable {rest : List ChainBlock}

theorem firstOf_append (inside : height ≤ chain.length) :
    firstOf (chain ++ rest) height = firstOf chain height := by
  rw [firstOf, firstOf, take_append_of_le_length inside]

theorem firstOf_length {chain : List ChainBlock} : firstOf chain chain.length = txCount chain := by
  rw [firstOf, take_length]

theorem firstOf_succ (placed : chain[height]? = some block) :
    firstOf chain (height + 1) = firstOf chain height + block.txids.length := by
  rw [firstOf, firstOf, take_add_one, placed, toList_some, txCount_append, txCount_singleton]

theorem firstOf_mono (chain : List ChainBlock) {lower upper : Nat} (below : lower ≤ upper) :
    firstOf chain lower ≤ firstOf chain upper := by
  have split := take_append_drop lower (chain.take upper)
  rw [take_take, min_eq_left below] at split
  rw [firstOf, firstOf, ← split, txCount_append]
  exact Nat.le_add_right _ _

/-- A block that holds transactions begins before the end of the chain. -/
theorem firstOf_lt_txCount (nonempty : ∀ block ∈ chain, block.txids ≠ [])
    (inside : height < chain.length) :
    firstOf chain height < txCount chain := by
  have placed := getElem?_eq_getElem inside
  have some := length_pos_of_ne_nil (nonempty _ (getElem_mem inside))
  calc firstOf chain height < firstOf chain (height + 1) := by rw [firstOf_succ placed]; omega
    _ ≤ firstOf chain chain.length := firstOf_mono chain inside
    _ = txCount chain := firstOf_length

/-- Every ordinal below the count lies in the block at some height. -/
theorem exists_covering (below : seq < txCount chain) :
    ∃ height < chain.length, firstOf chain height ≤ seq ∧ seq < firstOf chain (height + 1) := by
  induction chain using reverseRecOn with
  | nil => cases below
  | append_singleton chain block ih =>
    by_cases earlier : seq < txCount chain
    · obtain ⟨height, inside, first, last⟩ := ih earlier
      refine ⟨height, by simp; omega, ?_, ?_⟩
      · rwa [firstOf_append inside.le]
      · rwa [firstOf_append inside]
    · refine ⟨chain.length, by simp, ?_, ?_⟩
      · rw [firstOf_append le_rfl, firstOf_length]
        omega
      · have whole : (chain ++ [block]).length = chain.length + 1 := by simp
        rwa [← whole, firstOf_length]

/-- The first ordinals of a chain with one more block. -/
theorem firstOf_concat_iff {first : Nat} :
    height < (chain ++ [block]).length ∧ first = firstOf (chain ++ [block]) height ↔
      (height < chain.length ∧ first = firstOf chain height) ∨
        (height = chain.length ∧ first = txCount chain) := by
  rw [length_append, length_singleton]
  rcases lt_trichotomy height chain.length with below | rfl | above
  · rw [firstOf_append below.le]
    simp [below, below.ne, Nat.lt_succ_of_lt below]
  · rw [firstOf_append le_rfl, firstOf_length]
    simp
  · simp [above.ne', above.not_gt, Nat.not_lt_of_le (Nat.succ_le_of_lt above)]

/-- A transaction stands in the chain at an ordinal. -/
def StandsAt (chain : List ChainBlock) (txid : Txid) (seq : Nat) : Prop :=
  ∃ height block, chain[height]? = some block ∧
    ∃ position, block.txids[position]? = some txid ∧ seq = firstOf chain height + position

theorem StandsAt.lt_txCount (stands : StandsAt chain txid seq) : seq < txCount chain := by
  obtain ⟨height, block, placed, position, listed, rfl⟩ := stands
  obtain ⟨inside, -⟩ := List.getElem?_eq_some_iff.mp placed
  obtain ⟨within, -⟩ := List.getElem?_eq_some_iff.mp listed
  calc firstOf chain height + position < firstOf chain (height + 1) := by
        rw [firstOf_succ placed]; omega
    _ ≤ firstOf chain chain.length := firstOf_mono chain inside
    _ = txCount chain := firstOf_length

theorem StandsAt.append (stands : StandsAt chain txid seq) : StandsAt (chain ++ rest) txid seq := by
  obtain ⟨height, block, placed, position, listed, rfl⟩ := stands
  obtain ⟨inside, -⟩ := List.getElem?_eq_some_iff.mp placed
  refine ⟨height, block, ?_, position, listed, ?_⟩
  · rwa [getElem?_append_left inside]
  · rw [firstOf_append inside.le]

/-- A transaction of the last block or of the chain below it. -/
theorem StandsAt.of_append (stands : StandsAt (chain ++ [block]) txid seq) :
    StandsAt chain txid seq ∨ txid ∈ block.txids := by
  obtain ⟨height, found, placed, position, listed, rfl⟩ := stands
  by_cases inside : height < chain.length
  · rw [getElem?_append_left inside] at placed
    exact .inl ⟨height, found, placed, position, listed, by rw [firstOf_append inside.le]⟩
  · rw [getElem?_append_right (by omega)] at placed
    have same : found = block := by simpa using mem_of_getElem? placed
    exact .inr (same ▸ mem_of_getElem? listed)

/-! ## Rows -/

/-- The rows of a store describe a chain. A height index, the index entries and
the first ordinals say exactly which blocks there are; the rows of a
transaction may be missing but are never beyond the chain. -/
structure Represents (store : InMemoryStore) (chain : List ChainBlock) : Prop where
  heights : ∀ height, store.heightIndex.lookup height = chain[height]?.map ChainBlock.hash
  entries : ∀ block ∈ chain, store.blockIndex.lookup block.hash = some block.entry
  counted : ∀ block ∈ chain, block.entry.numTx = block.txids.length
  nonempty : ∀ block ∈ chain, block.txids ≠ []
  firsts : ∀ first height, store.txseqBlock.lookup first = some height ↔
    height < chain.length ∧ first = firstOf chain height
  located : ∀ txid seq, store.txLoc.lookup txid = some seq → StandsAt chain txid seq
  named : ∀ seq txid, store.txseqTxid.lookup seq = some txid → seq < txCount chain

/-- The families of rows that place blocks and transactions in the chain. -/
structure SameRows (store other : InMemoryStore) : Prop where
  heightIndex : store.heightIndex = other.heightIndex
  blockIndex : store.blockIndex = other.blockIndex
  txseqBlock : store.txseqBlock = other.txseqBlock
  txLoc : store.txLoc = other.txLoc
  txseqTxid : store.txseqTxid = other.txseqTxid

theorem Represents.congr {other : InMemoryStore} (represents : Represents store chain)
    (same : SameRows other store) :
    Represents other chain := by
  obtain ⟨heights, entries, counted, nonempty, firsts, located, named⟩ := represents
  rw [← same.heightIndex] at heights
  rw [← same.blockIndex] at entries
  rw [← same.txseqBlock] at firsts
  rw [← same.txLoc] at located
  rw [← same.txseqTxid] at named
  exact ⟨heights, entries, counted, nonempty, firsts, located, named⟩

namespace InMemoryStore

/-- The row found before an ordinal is the greatest one not above it. -/
theorem precedingBlock_eq_some {first : Nat} (row : store.txseqBlock.lookup first = some height)
    (below : first ≤ seq)
    (greatest : ∀ other place, store.txseqBlock.lookup other = some place → other ≤ seq →
      other ≤ first) : store.precedingBlock seq = some (first, height) := by
  have isMax : (store.txseqBlock.keys.filter (· ≤ seq)).max = (first : WithBot Nat) := by
    apply le_antisymm
    · apply Finset.max_le
      intro other listed
      obtain ⟨isKey, notAbove⟩ := Finset.mem_filter.mp listed
      obtain ⟨place, held⟩ := Finmap.mem_iff.mp (Finmap.mem_keys.mp isKey)
      exact WithBot.coe_le_coe.mpr (greatest other place held notAbove)
    · apply Finset.le_max
      exact Finset.mem_filter.mpr ⟨Finmap.mem_keys.mpr (Finmap.mem_of_lookup_eq_some row), below⟩
  unfold precedingBlock
  rw [isMax]
  simp [row]

theorem precedingBlock_eq_none (noRow : ∀ first, store.txseqBlock.lookup first = none) :
    store.precedingBlock seq = none := by
  have noKey : store.txseqBlock.keys.filter (· ≤ seq) = ∅ := by
    rw [Finset.filter_eq_empty_iff]
    intro first isKey
    obtain ⟨place, held⟩ := Finmap.mem_iff.mp (Finmap.mem_keys.mp isKey)
    rw [noRow] at held
    cases held
  unfold precedingBlock
  rw [noKey, Finset.max_empty]

end InMemoryStore

namespace Represents

/-- The row before an ordinal, for the last block that begins at or before it. -/
theorem blockOfSeq_of_last (represents : Represents store chain)
    (placed : chain[height]? = some block) (begun : firstOf chain height ≤ seq)
    (last : height + 1 < chain.length → seq < firstOf chain (height + 1)) :
    store.blockOfSeq seq =
      if firstOf chain (height + 1) ≤ seq then none else some (firstOf chain height, height) := by
  obtain ⟨inside, rfl⟩ := List.getElem?_eq_some_iff.mp placed
  have member : chain[height] ∈ chain := getElem_mem inside
  have preceding : store.precedingBlock seq = some (firstOf chain height, height) := by
    apply InMemoryStore.precedingBlock_eq_some ((represents.firsts _ _).mpr ⟨inside, rfl⟩) begun
    intro other place held notAbove
    obtain ⟨placeInside, rfl⟩ := (represents.firsts _ _).mp held
    apply firstOf_mono
    by_contra later
    have next := firstOf_mono chain (show height + 1 ≤ place by omega)
    have := last (by omega)
    omega
  have hash : store.getBlockHashByHeight height = some chain[height].hash := by
    rw [InMemoryStore.getBlockHashByHeight, represents.heights, placed]
    rfl
  have entry : store.getBlockIndex chain[height].hash = some chain[height].entry :=
    represents.entries _ member
  simp [InMemoryStore.blockOfSeq, preceding, hash, entry, represents.counted _ member,
    firstOf_succ placed]

/-- An ordinal inside the chain lies in the block that covers it. -/
theorem blockOfSeq_of_covering (represents : Represents store chain)
    (inside : height < chain.length) (begun : firstOf chain height ≤ seq)
    (unfinished : seq < firstOf chain (height + 1)) :
    store.blockOfSeq seq = some (firstOf chain height, height) := by
  rw [represents.blockOfSeq_of_last (getElem?_eq_getElem inside) begun fun _ => unfinished,
    if_neg (by omega)]

/-- No block holds an ordinal at or past the end of the chain. -/
theorem blockOfSeq_of_past (represents : Represents store chain) (past : txCount chain ≤ seq) :
    store.blockOfSeq seq = none := by
  cases size : chain.length with
  | zero =>
    have noRow : ∀ first, store.txseqBlock.lookup first = none := by
      intro first
      by_contra present
      obtain ⟨height, held⟩ := ne_none_iff_exists'.mp present
      have := ((represents.firsts _ _).mp held).1
      omega
    rw [InMemoryStore.blockOfSeq, InMemoryStore.precedingBlock_eq_none noRow]
    rfl
  | succ height =>
    have placed := getElem?_eq_getElem (show height < chain.length by omega)
    have whole : firstOf chain (height + 1) = txCount chain := by rw [← size, firstOf_length]
    have begun := firstOf_mono chain (Nat.le_add_right height 1)
    rw [represents.blockOfSeq_of_last placed (by omega) (by omega), if_pos (by omega)]

end Represents

/-! ## Batches that connect and disconnect a block -/

/-- A batch that connects a block at the end of a chain. -/
structure Connects (chain : List ChainBlock) (block : ChainBlock) (batch : StoreBatch) : Prop where
  tip : batch.tip = some block.hash
  height : batch.heightHash = ⟨[(chain.length, block.hash)], []⟩
  entry : batch.blockIndexPuts = [(block.hash, block.entry)]
  valid : block.entry.status = .valid
  counted : block.entry.numTx = block.txids.length
  nonempty : block.txids ≠ []
  distinct : block.txids.Nodup
  unnamed : ∀ other ∈ chain, other.hash ≠ block.hash
  first : batch.txseqBlock = ⟨[(txCount chain, chain.length)], []⟩
  located : batch.txLoc = ⟨block.txids.zipIdx (txCount chain), []⟩
  named : batch.txseqTxid = ⟨(block.txids.zipIdx (txCount chain)).map Prod.swap, []⟩

/-- A batch that disconnects the block after a chain. -/
structure Disconnects (chain : List ChainBlock) (block : ChainBlock) (batch : StoreBatch) :
    Prop where
  tip : batch.tip ≠ none
  height : batch.heightHash = ⟨[], [chain.length]⟩
  entry : batch.blockIndexPuts = []
  first : batch.txseqBlock = ⟨[], [txCount chain]⟩
  unlocated : batch.txLoc.puts = []
  located : ∀ txid, txid ∈ batch.txLoc.removes ↔ txid ∈ block.txids
  unnamed : batch.txseqTxid.puts = []
  named : ∀ seq, seq ∈ batch.txseqTxid.removes ↔
    txCount chain ≤ seq ∧ seq < txCount chain + block.txids.length

section Represented

variable {batch : StoreBatch}

section

variable (connects : Connects chain block batch)
include connects

theorem Connects.mem_located :
    (txid, seq) ∈ batch.txLoc.puts ↔
      txCount chain ≤ seq ∧ block.txids[seq - txCount chain]? = some txid := by
  rw [connects.located]
  exact mem_zipIdx_iff_le_and_getElem?_sub

theorem Connects.keys_located : batch.txLoc.puts.map Prod.fst = block.txids := by
  rw [connects.located]
  exact zipIdx_map_fst _ _

theorem Connects.keys_named :
    batch.txseqTxid.puts.map Prod.fst = List.range' (txCount chain) block.txids.length := by
  rw [connects.named, List.map_map]
  exact zipIdx_map_snd _ _

/-- A put of a block's transaction is the ordinal at which it now stands. -/
theorem Connects.standsAt
    (put : (txid, seq) ∈ batch.txLoc.puts) : StandsAt (chain ++ [block]) txid seq := by
  obtain ⟨above, listed⟩ := connects.mem_located.mp put
  refine ⟨chain.length, block, by simp, seq - txCount chain, listed, ?_⟩
  rw [firstOf_append le_rfl, firstOf_length]
  omega

end

/-- After a connect the rows describe the longer chain. -/
theorem Represents.connect (represents : Represents store chain)
    (connects : Connects chain block batch) :
    Represents (store.writeBatch batch) (chain ++ [block]) := by
  constructor
  case heights =>
    intro height
    have lookup : (store.writeBatch batch).heightIndex.lookup height =
        (lastPut height [(chain.length, block.hash)]).or (store.heightIndex.lookup height) := by
      simp [InMemoryStore.writeBatch, connects.height, Writes.lookup_apply]
    rw [lookup, represents.heights]
    rcases lt_trichotomy height chain.length with below | rfl | above
    · rw [getElem?_append_left below]
      simp [lastPut, below.ne']
    · simp [lastPut]
    · have outside : (chain ++ [block])[height]? = none := by simp; omega
      simp [lastPut, above.ne, above.le, outside]
  case entries =>
    intro other member
    simp only [InMemoryStore.writeBatch, connects.entry, putAll_cons, putAll_nil, lookup_insert]
    rcases mem_append.mp member with older | newest
    · rw [if_neg (connects.unnamed other older).symm, represents.entries other older]
    · rw [mem_singleton.mp newest, if_pos rfl]
  case counted =>
    intro other member
    rcases mem_append.mp member with older | newest
    · exact represents.counted other older
    · rw [mem_singleton.mp newest, connects.counted]
  case nonempty =>
    intro other member
    rcases mem_append.mp member with older | newest
    · exact represents.nonempty other older
    · rw [mem_singleton.mp newest]
      exact connects.nonempty
  case firsts =>
    intro first height
    have lookup : (store.writeBatch batch).txseqBlock.lookup first =
        (lastPut first [(txCount chain, chain.length)]).or (store.txseqBlock.lookup first) := by
      simp [InMemoryStore.writeBatch, connects.first, Writes.lookup_apply]
    rw [lookup]
    rw [firstOf_concat_iff]
    by_cases isNew : txCount chain = first
    · have noOld : ¬ (height < chain.length ∧ first = firstOf chain height) := by
        rintro ⟨inside, same⟩
        have := firstOf_lt_txCount represents.nonempty inside
        omega
      simp [lastPut, isNew, noOld, eq_comm]
    · simp [lastPut, isNew, represents.firsts, Ne.symm isNew]
  case located =>
    intro txid seq found
    rw [InMemoryStore.writeBatch, Writes.lookup_apply] at found
    rw [if_neg (by simp [connects.located])] at found
    rcases or_eq_some_iff.mp found with put | ⟨-, held⟩
    · exact connects.standsAt (mem_of_lastPut put)
    · exact (represents.located txid seq held).append
  case named =>
    intro seq txid found
    rw [InMemoryStore.writeBatch, Writes.lookup_apply] at found
    rw [if_neg (by simp [connects.named])] at found
    rw [txCount_append, txCount_singleton]
    rcases or_eq_some_iff.mp found with put | ⟨-, held⟩
    · have isKey := mem_map_of_mem (f := Prod.fst) (mem_of_lastPut put)
      rw [connects.keys_named, mem_range'_1] at isKey
      exact isKey.2
    · have := represents.named seq txid held
      omega

/-- After a disconnect the rows describe the shorter chain. -/
theorem Represents.disconnect (represents : Represents store (chain ++ [block]))
    (disconnects : Disconnects chain block batch) : Represents (store.writeBatch batch) chain := by
  have nonempty : ∀ other ∈ chain, other.txids ≠ [] := fun other member =>
    represents.nonempty other (mem_append_left _ member)
  constructor
  case heights =>
    intro height
    have lookup : (store.writeBatch batch).heightIndex.lookup height =
        if height = chain.length then none else store.heightIndex.lookup height := by
      simp [InMemoryStore.writeBatch, disconnects.height, Writes.lookup_apply, lastPut]
    rw [lookup, represents.heights]
    rcases lt_trichotomy height chain.length with below | rfl | above
    · rw [if_neg below.ne, getElem?_append_left below]
    · simp
    · have outside : (chain ++ [block])[height]? = none := by simp; omega
      simp [above.ne', above.le, outside]
  case entries =>
    intro other member
    simp only [InMemoryStore.writeBatch, disconnects.entry, putAll_nil]
    exact represents.entries other (mem_append_left _ member)
  case counted =>
    exact fun other member => represents.counted other (mem_append_left _ member)
  case nonempty => exact nonempty
  case firsts =>
    intro first height
    have lookup : (store.writeBatch batch).txseqBlock.lookup first =
        if first = txCount chain then none else store.txseqBlock.lookup first := by
      simp [InMemoryStore.writeBatch, disconnects.first, Writes.lookup_apply, lastPut]
    rw [lookup]
    by_cases gone : first = txCount chain
    · have noOld : ¬ (height < chain.length ∧ first = firstOf chain height) := by
        rintro ⟨inside, same⟩
        have := firstOf_lt_txCount nonempty inside
        omega
      rw [if_pos gone]
      exact iff_of_false (by simp) noOld
    · rw [if_neg gone, represents.firsts, firstOf_concat_iff]
      simp [gone]
  case located =>
    intro txid seq found
    rw [InMemoryStore.writeBatch, Writes.lookup_apply] at found
    split at found
    · cases found
    · next kept =>
      rw [disconnects.unlocated, lastPut, none_or] at found
      rcases (represents.located txid seq found).of_append with stands | removed
      · exact stands
      · exact absurd ((disconnects.located txid).mpr removed) kept
  case named =>
    intro seq txid found
    rw [InMemoryStore.writeBatch, Writes.lookup_apply] at found
    split at found
    · cases found
    · next kept =>
      rw [disconnects.unnamed, lastPut, none_or] at found
      have below := represents.named seq txid found
      rw [txCount_append, txCount_singleton] at below
      rw [disconnects.named] at kept
      omega

end Represented

end Satd.Storage
