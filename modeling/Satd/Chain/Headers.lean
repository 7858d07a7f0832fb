import Satd.Chain.Rules
import Satd.Lib.Lineage

/-!
# Accepting headers

A header that extends a known block is put into the block index, alone or in a batch.
When the batch holds a header with more work than the best one so far, that one becomes
the best header, and the rows of the height index above the active tip are rewritten to
its chain: the old chain's rows above it go, and its own ancestors are entered down to
where the two chains meet.

A batch may also restore rows for blocks it names again, whose data is stored and whose
height has no row.

The checks of a header's proof of work, difficulty, time and version look at its
ancestors. They are taken as arbitrary functions of what they read.
-/

namespace Satd.Chain

open KeyedMap Satd.Bitcoin Satd.Storage

/-- Why a header or a block is refused, or a call on the chain fails. -/
inductive ChainError where
  | duplicate
  | prevBlockNotFound
  | badPrevBlock
  | parentNeverConnected
  | checkpointMismatch (height : Nat)
  | forkBeforeCheckpoint (height : Nat)
  | validation (reason : String)
  | connect
  | store
  | flatFile
  | blockNotFound
  | invalidArgument
  | reactivationFailed
  deriving DecidableEq, Repr

abbrev IndexLookup := BlockHash → Option BlockIndexEntry

structure Checkpoint where
  height : Nat
  hash : BlockHash

/-- What does not change while headers are accepted. -/
structure HeaderRules where
  blockHash : Header → BlockHash
  checkProofOfWork : Header → Except ChainError Unit
  checkDifficulty : Header → BlockIndexEntry → IndexLookup → Except ChainError Unit
  /-- The header, its parent, its height and the time of day. -/
  checkHeaderContext : Header → BlockIndexEntry → Nat → Nat → IndexLookup → Except ChainError Unit
  enforceCheckpoints : Bool
  checkpoints : List Checkpoint

/-- The rows, the best header with its work and its height, and the height of the tip. -/
structure HeaderState where
  store : InMemoryStore
  bestHeader : BlockHash × Nat
  headersTipHeight : Nat
  tipHeight : Nat

variable (rules : HeaderRules) (store : InMemoryStore)

/-- The height of the highest checkpoint in the index. -/
def lastCheckpointInIndex : Option Nat :=
  if rules.enforceCheckpoints then
    ((rules.checkpoints.filter fun checkpoint =>
      (store.getBlockIndex checkpoint.hash).isSome).map Checkpoint.height).max?
  else none

/-- No new fork starts below a checkpoint. -/
def checkForkAfterCheckpoint (height : Nat) (lastCheckpoint : Option Nat) :
    Except ChainError Unit :=
  match lastCheckpoint with
  | some checkpoint =>
    if height < checkpoint then .error (.forkBeforeCheckpoint height) else .ok ()
  | none => .ok ()

variable (header : Header) (parent : BlockIndexEntry)

/-- The checks both paths make of a header whose parent is known. -/
def checkHeader (lastCheckpoint : Option Nat) (now : Nat) (lookup : IndexLookup) :
    Except ChainError Unit := do
  rules.checkProofOfWork header
  rules.checkDifficulty header parent lookup
  checkForkAfterCheckpoint (parent.height + 1) lastCheckpoint
  rules.checkHeaderContext header parent (parent.height + 1) now lookup

/-- The entry of a header without block data. -/
def headerEntry : BlockIndexEntry where
  header
  height := parent.height + 1
  status := .headerOnly
  numTx := 0
  fileNumber := 0
  dataPos := 0
  chainwork := addU256 parent.chainwork (workForBits header.bits)

/-! ## The rows of a new best header -/

/-- Walk the old chain down to a height, collecting the heights above the tip it leaves. -/
def leaveHeights (lookup : IndexLookup) (limit tipHeight : Nat) :
    Nat → BlockHash → BlockHash × List Nat
  | 0, hash => (hash, [])
  | fuel + 1, hash =>
    match lookup hash with
    | none => (hash, [])
    | some entry =>
      if entry.height ≤ limit then (hash, [])
      else
        let below := leaveHeights lookup limit tipHeight fuel entry.header.prevBlockhash
        (below.1, if tipHeight < entry.height then entry.height :: below.2 else below.2)

/-- Walk the new chain down to a height, taking a row at every step. There is no block to go
on from when the tip or an unknown block was met. -/
def takeRows (lookup : IndexLookup) (target tipHeight : Nat) :
    Nat → BlockHash → BlockIndexEntry →
      Option (BlockHash × BlockIndexEntry) × List (Nat × BlockHash)
  | 0, hash, entry => (some (hash, entry), [])
  | fuel + 1, hash, entry =>
    if entry.height ≤ target then (some (hash, entry), [])
    else if entry.height ≤ tipHeight then (none, [])
    else
      match lookup entry.header.prevBlockhash with
      | none => (none, [(entry.height, hash)])
      | some parent =>
        let below := takeRows lookup target tipHeight fuel entry.header.prevBlockhash parent
        (below.1, (entry.height, hash) :: below.2)

/-- Walk both chains down in step until they meet. -/
def takeRowsUntilMet (lookup : IndexLookup) (tipHeight : Nat) :
    Nat → BlockHash → BlockIndexEntry → BlockHash → List (Nat × BlockHash)
  | 0, _, _, _ => []
  | fuel + 1, hash, entry, oldHash =>
    if hash = oldHash ∨ entry.height ≤ tipHeight then []
    else
      (entry.height, hash) ::
        match lookup entry.header.prevBlockhash, lookup oldHash with
        | some parent, some oldEntry =>
          takeRowsUntilMet lookup tipHeight fuel entry.header.prevBlockhash parent
            oldEntry.header.prevBlockhash
        | _, _ => []

/-- The rows to write and the heights to drop when the best header changes. -/
def headerChainRows (lookup : IndexLookup) (newBest oldBest : BlockHash) (tipHeight : Nat) :
    List (Nat × BlockHash) × List Nat :=
  match lookup newBest with
  | none => ([], [])
  | some newEntry =>
    let oldFuel := ((lookup oldBest).elim 0 BlockIndexEntry.height) + 1
    let left := leaveHeights lookup newEntry.height tipHeight oldFuel oldBest
    let oldHeight := (lookup left.1).elim 0 BlockIndexEntry.height
    let taken := takeRows lookup oldHeight tipHeight (newEntry.height + 1) newBest newEntry
    match taken.1 with
    | none => (taken.2, left.2)
    | some (hash, entry) =>
      (taken.2 ++ takeRowsUntilMet lookup tipHeight (entry.height + 1) hash entry left.1, left.2)

/-! ## Batches -/

/-- What a batch of headers has staged. -/
structure HeaderScan where
  /-- The entries to write, in order. -/
  puts : List (BlockHash × BlockIndexEntry) := []
  /-- The same entries by hash. -/
  batchIndex : Map BlockHash BlockIndexEntry := ∅
  /-- Rows to restore for blocks that are stored already. -/
  repairs : List (Nat × BlockHash) := []
  accepted : Nat := 0
  /-- The staged header with the most work, the first one of several. -/
  best : Option (BlockHash × Nat) := none
  lastCheckpoint : Option Nat

/-- Entries of the batch first, then of the store. -/
def HeaderScan.lookup (scan : HeaderScan) : IndexLookup :=
  fun hash => (scan.batchIndex.lookup hash).or (store.getBlockIndex hash)

/-- Stage a header that is new. -/
def HeaderScan.stage (scan : HeaderScan) : HeaderScan :=
  let hash := rules.blockHash header
  let entry := headerEntry header parent
  { scan with
    puts := scan.puts ++ [(hash, entry)]
    batchIndex := scan.batchIndex.insert hash entry
    accepted := scan.accepted + 1
    best := match scan.best with
      | none => some (hash, entry.chainwork)
      | some best => if best.2 < entry.chainwork then some (hash, entry.chainwork) else some best
    lastCheckpoint :=
      if rules.enforceCheckpoints ∧ (rules.checkpoints.any fun checkpoint => checkpoint.hash = hash)
          ∧ scan.lastCheckpoint.all (· < entry.height) then some entry.height
      else scan.lastCheckpoint }

variable (now : Nat)

/-- One header of a batch. -/
def HeaderScan.next (header : Header) (scan : HeaderScan) : Except ChainError HeaderScan :=
  let hash := rules.blockHash header
  match store.getBlockIndex hash with
  | some existing =>
    if existing.status = .dataStored ∧ store.getBlockHashByHeight existing.height = none then
      .ok { scan with repairs := scan.repairs ++ [(existing.height, hash)] }
    else .ok scan
  | none =>
    match (store.getBlockIndex header.prevBlockhash).or
        (scan.batchIndex.lookup header.prevBlockhash) with
    | none => .error .badPrevBlock
    | some parent =>
      match checkHeader rules header parent scan.lastCheckpoint now (scan.lookup store) with
      | .error error => .error error
      | .ok _ => .ok (scan.stage rules header parent)

/-- The headers of a batch, up to the first that is refused. -/
def scanHeaders (now : Nat) : List Header → HeaderScan → HeaderScan × Option ChainError
  | [], scan => (scan, none)
  | header :: rest, scan =>
    match scan.next rules store now header with
    | .error error => (scan, some error)
    | .ok scan => scanHeaders now rest scan

/-- Write what was staged, with the rows of a new best header. Nothing changes when the store
refuses the write. -/
def commitAcceptedHeaders (state : HeaderState) (scan : HeaderScan) (writable : Bool) :
    Except ChainError HeaderState :=
  let repairs := scan.repairs.filter fun row => state.tipHeight < row.1
  let heavier := scan.best.filter fun best => state.bestHeader.2 < best.2
  let rows := match heavier with
    | none => ([], [])
    | some best =>
      headerChainRows (scan.lookup state.store) best.1 state.bestHeader.1 state.tipHeight
  let batch : StoreBatch :=
    { blockIndexPuts := scan.puts, heightHash := { puts := repairs ++ rows.1, removes := rows.2 } }
  if writable then
    let store := state.store.writeBatch batch
    match heavier with
    | none => .ok { state with store }
    | some best =>
      match scan.batchIndex.lookup best.1 with
      | none => .ok { state with store }
      | some entry => .ok { state with store, bestHeader := best, headersTipHeight := entry.height }
  else .error .store

/-- Accept a header without block data. -/
def acceptHeader (writable : Bool) (header : Header) (state : HeaderState) :
    HeaderState × Except ChainError BlockHash :=
  let hash := rules.blockHash header
  match state.store.getBlockIndex hash with
  | some _ => (state, .error .duplicate)
  | none =>
    match state.store.getBlockIndex header.prevBlockhash with
    | none => (state, .error .prevBlockNotFound)
    | some parent =>
      match checkHeader rules header parent (lastCheckpointInIndex rules state.store) now
          state.store.getBlockIndex with
      | .error error => (state, .error error)
      | .ok _ =>
        let staged := HeaderScan.stage rules header parent { lastCheckpoint := none }
        match commitAcceptedHeaders state staged writable with
        | .error error => (state, .error error)
        | .ok after => (after, .ok hash)

/-- Accept a batch of headers: the number accepted and the first refusal. -/
def acceptHeaders (writable : Bool) (headers : List Header) (state : HeaderState) :
    HeaderState × Nat × Option ChainError :=
  let scanned := scanHeaders rules state.store now headers
    { lastCheckpoint := lastCheckpointInIndex rules state.store }
  if 0 < scanned.1.accepted ∨ scanned.1.repairs ≠ [] then
    match commitAcceptedHeaders state scanned.1 writable with
    | .error error => (state, 0, some error)
    | .ok after => (after, scanned.1.accepted, scanned.2)
  else (state, scanned.1.accepted, scanned.2)

end Satd.Chain
