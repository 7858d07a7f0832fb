import Satd.Chain.HeaderRows
import Satd.Lib.Subtree

/-!
# Branches of the block index

Headers and blocks arrive on any branch. A block that extends the tip is connected; one on
another branch is stored, and the chain with the most work whose blocks are all stored is
activated: the blocks above the fork are disconnected and those of the other branch
connected, or, when one of them fails, nothing changes but its mark. A block that fails
validation is marked invalid with all its descendants. An operator may mark a branch, and
take the mark back.

What this depends on beyond the block index is taken from the surroundings of a call: the
order of a scan of the index, the order in which blocks became connectable, which blocks
can be read and disconnected, and what connecting a block says of it.
-/

namespace Satd.Chain

open KeyedMap Satd.Bitcoin Satd.Storage

/-- A full scan of the block index: every row once, in some order. -/
structure IndexScan where
  rows : InMemoryStore → List (BlockHash × BlockIndexEntry)
  nodup : ∀ store, ((rows store).map Prod.fst).Nodup
  mem_rows : ∀ store hash entry, (hash, entry) ∈ rows store ↔ store.getBlockIndex hash = some entry

/-- The scan in the order of the hashes. -/
def sortedScan : IndexScan where
  rows store := rowsOf store.getBlockIndex (ascending store.blockIndex.keys)
  nodup store := nodup_rowsOf (nodup_ascending)
  mem_rows store hash entry := by
    rw [mem_rowsOf, mem_ascending, Finmap.mem_keys]
    constructor
    · exact fun found => found.2
    · intro found
      refine ⟨?_, found⟩
      rw [← Finmap.lookup_isSome]
      rw [InMemoryStore.getBlockIndex] at found
      rw [found]
      rfl

/-- What connecting a block comes to. A verdict is on the block itself; a fault is in the
node's own storage. -/
inductive ConnectOutcome where
  | connected | verdict | unreadable | fault
  deriving DecidableEq, Repr

/-- What a call finds around it. -/
structure Surroundings where
  now : Nat
  scan : IndexScan
  /-- The sequence ids that were handed out since the start. -/
  sequenceIds : BlockHash → Option Int
  /-- The blocks the arrival of a stored block makes connectable. -/
  newlyConnectable : List BlockHash
  /-- Where the bytes of a block are written, if they can be. -/
  written : Option (Nat × Nat)
  /-- The block and its undo data can be read. -/
  disconnects : BlockHash → Bool
  connects : BlockHash → ConnectOutcome

/-- Why a block fails its own checks. -/
inductive BlockFailure where
  | overweightBlock | other (reason : String)
  deriving DecidableEq, Repr

/-- Why the transactions of a block fail the checks made before it is written. -/
inductive ContextFailure where
  | locktimeNotFinal | badCoinbaseHeight | other
  deriving DecidableEq, Repr

structure BlockRules extends HeaderRules where
  checkBlock : Block → Nat → Except BlockFailure Unit
  checkSignetSolution : Block → Except ChainError Unit
  medianTimePastOf : BlockIndexEntry → IndexLookup → Nat
  checkBlockContext : Block → Nat → Nat → Except ContextFailure Unit

/-- The headers' state and the active tip. -/
structure BranchState extends HeaderState where
  tip : BlockHash

namespace BranchState

variable (state : BranchState)

def index : IndexLookup := state.store.getBlockIndex

def write (batch : StoreBatch) : BranchState := { state with store := state.store.writeBatch batch }

/-- Take a header as the best one if it has more work. -/
def updateBestHeader (hash : BlockHash) (chainwork height : Nat) : BranchState :=
  if state.bestHeader.2 < chainwork then
    { state with bestHeader := (hash, chainwork), headersTipHeight := height }
  else state

end BranchState

def BlockStatus.hasData (status : BlockStatus) : Bool := status = .dataStored ∨ status = .valid

/-! ## Marks -/

/-- The scanned row with the most work that is not invalid, the first one of several. -/
def heaviestRow (rows : List (BlockHash × BlockIndexEntry)) :
    Option (BlockHash × BlockIndexEntry) :=
  rows.foldl (fun best row =>
    if row.2.status = .invalid then best
    else match best with
      | none => some row
      | some heaviest =>
        if heaviest.2.chainwork < row.2.chainwork then some row else some heaviest) none

variable (scan : IndexScan)

/-- Set the best header from a scan of the index. -/
def recalculateBestHeader (state : BranchState) : BranchState :=
  match heaviestRow (scan.rows state.store) with
  | none => state
  | some (hash, entry) =>
    { state with bestHeader := (hash, entry.chainwork), headersTipHeight := entry.height }

/-- The blocks of the index whose parent is the given one. -/
def blockIndexChildren (rows : List (BlockHash × BlockIndexEntry)) (hash : BlockHash) :
    List BlockHash :=
  (rows.filter fun row => row.2.header.prevBlockhash = hash).map Prod.fst

/-- A block and its descendants, as the scan shows them. -/
def subtree (store : InMemoryStore) (root : BlockHash) : List BlockHash :=
  let rows := scan.rows store
  Subtree.walk (blockIndexChildren rows) (rows.length + 2) [root]

variable (index : IndexLookup)

/-- The entry of a block that is marked, if it is not yet. -/
def markedEntry (hash : BlockHash) : Option BlockIndexEntry :=
  (index hash).bind fun entry =>
    if entry.status ≠ .invalid ∧ entry.status ≠ .pruned then
      some { entry with status := .invalid }
    else none

variable (root : BlockHash)

/-- Write the marks of a block and its descendants. -/
def writeMarks (state : BranchState) : BranchState :=
  state.write { blockIndexPuts := rowsOf (markedEntry state.index) (subtree scan state.store root) }

/-- Mark a block and its descendants. The best header moves when it is one of them. -/
def markSubtreeInvalid (state : BranchState) : BranchState :=
  if state.bestHeader.1 ∈ subtree scan state.store root then
    recalculateBestHeader scan (writeMarks scan root state)
  else writeMarks scan root state

/-- The entry of a block whose mark is taken back, if it has one. -/
def clearedEntry (hash : BlockHash) : Option BlockIndexEntry :=
  (index hash).bind fun entry =>
    if entry.status = .invalid then
      some { entry with status := if entry.numTx = 0 then .headerOnly else .dataStored }
    else none

/-- The known ancestors of a block from its parent down to the bottom. -/
def ancestors : Nat → BlockHash → List BlockHash
  | 0, _ => []
  | fuel + 1, hash =>
    match index hash with
    | none => []
    | some entry =>
      hash :: if 0 < entry.height then ancestors fuel entry.header.prevBlockhash else []

/-- A block, its descendants and its ancestors. -/
def relatives (state : BranchState) : List BlockHash :=
  subtree scan state.store root ++ match state.index root with
    | none => []
    | some entry => ancestors state.index (entry.height + 1) entry.header.prevBlockhash

/-- Take the mark back from a block, its descendants and its ancestors. -/
def clearSubtreeInvalid (state : BranchState) : BranchState :=
  state.write { blockIndexPuts := rowsOf (clearedEntry state.index) (relatives scan root state) }

/-! ## The active chain -/

/-- Go down a number of parents. -/
def walkDown : Nat → BlockHash → Option BlockHash
  | 0, hash => some hash
  | steps + 1, hash => (index hash).bind fun entry => walkDown steps entry.header.prevBlockhash

variable (state : BranchState)

def activeChainHashAtHeight (height : Nat) : Option BlockHash :=
  if state.tipHeight < height then none
  else walkDown state.index (state.tipHeight - height) state.tip

/-- The index answers yes; before no is answered the chain is walked. -/
def activeChainContains (hash : BlockHash) (height : Nat) : Bool :=
  height ≤ state.tipHeight ∧
    (state.store.getBlockHashByHeight height = some hash ∨
      activeChainHashAtHeight state height = some hash)

/-- Every block down to the active chain has data. -/
def isConnectable : Nat → BlockHash → Bool
  | height, hash =>
    if activeChainHashAtHeight state height = some hash then true
    else match state.index hash with
      | none => false
      | some entry =>
        if BlockStatus.hasData entry.status then
          match height with
          | 0 => true
          | below + 1 => isConnectable below entry.header.prevBlockhash
        else false

/-- Walk two branches down in step until they meet. -/
def meet : Nat → BlockHash → BlockHash → Option BlockHash
  | 0, first, second => if first = second then some first else none
  | steps + 1, first, second =>
    if first = second then some first
    else (index first).bind fun firstEntry => (index second).bind fun secondEntry =>
      meet steps firstEntry.header.prevBlockhash secondEntry.header.prevBlockhash

section Activation

variable (rules : BlockRules) (surroundings : Surroundings) (state : BranchState)

/-- The common ancestor of two known blocks. -/
def findFork (tipEntry target : BlockIndexEntry) : Except ChainError BlockIndexEntry :=
  let active := walkDown state.index (tipEntry.height - target.height)
    (rules.blockHash tipEntry.header)
  let side := walkDown state.index (target.height - tipEntry.height) (rules.blockHash target.header)
  let fork := active.bind fun active => side.bind fun side =>
    (meet state.index (min tipEntry.height target.height) active side).bind state.index
  fork.elim (.error .badPrevBlock) .ok

/-- An id handed out since the start, or one that prefers the active chain. -/
def sequenceId (hash : BlockHash) (height : Nat) : Int :=
  match surroundings.sequenceIds hash with
  | some id => id
  | none => if activeChainHashAtHeight state height = some hash then 0 else 1

/-- More work, then the earlier sequence id, then the smaller hash. -/
def outranks (first second : BlockIndexEntry) : Bool :=
  let firstHash := rules.blockHash first.header
  let secondHash := rules.blockHash second.header
  let firstId := sequenceId surroundings state firstHash first.height
  let secondId := sequenceId surroundings state secondHash second.height
  second.chainwork < first.chainwork ∨ first.chainwork = second.chainwork ∧
    (firstId < secondId ∨ firstId = secondId ∧ firstHash < secondHash)

/-- The first candidate to be on, the tip when none outranks it. -/
def pickCandidate (tipEntry : BlockIndexEntry) : List BlockIndexEntry → BlockIndexEntry
  | [] => tipEntry
  | candidate :: rest =>
    if rules.blockHash candidate.header = state.tip then candidate
    else if BlockStatus.hasData tipEntry.status ∧
        ¬ outranks rules surroundings state candidate tipEntry then tipEntry
    else if isConnectable state candidate.height (rules.blockHash candidate.header) then candidate
    else pickCandidate tipEntry rest

/-- The block with the most work that can be connected. -/
def findBestValidTip : Except ChainError BlockIndexEntry :=
  match state.index state.tip with
  | none => .error .badPrevBlock
  | some tipEntry =>
    let candidates := ((surroundings.scan.rows state.store).map Prod.snd).filter fun entry =>
      BlockStatus.hasData entry.status
    .ok (pickCandidate rules surroundings state tipEntry
      (candidates.insertionSort fun first second =>
        outranks rules surroundings state second first = false))

/-- Read the blocks from one down to the fork: the heights they are disconnected at. -/
def disconnectTo (fork : BlockHash) : Nat → BlockHash → Except ChainError (List Nat)
  | 0, hash => if hash = fork then .ok [] else .error .badPrevBlock
  | fuel + 1, hash =>
    if hash = fork then .ok []
    else match state.index hash with
      | none => .error .badPrevBlock
      | some entry =>
        if surroundings.disconnects hash then
          (disconnectTo fork fuel entry.header.prevBlockhash).map (entry.height :: ·)
        else .error .flatFile

/-- The blocks above the fork up to a given one, the oldest first. -/
def pathFrom (fork : BlockHash) : Nat → BlockHash → Except ChainError (List BlockHash)
  | 0, hash => if hash = fork then .ok [] else .error .badPrevBlock
  | fuel + 1, hash =>
    if hash = fork then .ok []
    else match state.index hash with
      | none => .error .badPrevBlock
      | some entry => (pathFrom fork fuel entry.header.prevBlockhash).map (· ++ [hash])

/-- Disconnect everything above the fork. -/
def performReorg (forkEntry : BlockIndexEntry) : Except ChainError BranchState :=
  let fork := rules.blockHash forkEntry.header
  (disconnectTo surroundings state fork (state.tipHeight + 1) state.tip).map fun heights =>
    { state.write { heightHash := { removes := heights } } with
      tip := fork, tipHeight := forkEntry.height }

end Activation

/-- Why a reorganisation failed, and the block that failed validation. -/
structure ReorgFailure where
  error : ChainError
  invalid : Option BlockHash := none

/-- The batch of a connected block, and the tip on it. -/
def BranchState.connect (hash : BlockHash) (entry parent : BlockIndexEntry) : BranchState :=
  { state.write
      { blockIndexPuts := [(hash, { entry with
          status := .valid
          chainwork := addU256 parent.chainwork (workForBits entry.header.bits) })]
        heightHash := { puts := [(entry.height, hash)] } } with
    tip := hash, tipHeight := entry.height }

/-- The parent is a block this chainstate connected. -/
def requireConnectedParent (parent : BlockHash) : Bool :=
  (state.index parent).any fun entry => entry.status = .valid ∨ entry.status = .pruned

/-- Connect a stored block on top of the tip. -/
def connectStored (surroundings : Surroundings) (state : BranchState) (hash : BlockHash) :
    Except ReorgFailure BranchState :=
  match state.index hash with
  | none => .error { error := .flatFile }
  | some entry =>
    if surroundings.connects hash = .unreadable then .error { error := .flatFile }
    else match state.index entry.header.prevBlockhash with
      | none => .error { error := .badPrevBlock }
      | some parent =>
        if requireConnectedParent state entry.header.prevBlockhash then
          match surroundings.connects hash with
          | .connected => .ok (state.connect hash entry parent)
          | .verdict => .error { error := .connect, invalid := some hash }
          | _ => .error { error := .connect }
        else .error { error := .parentNeverConnected }

/-- The blocks of a branch up to a given one. -/
def reconnect (surroundings : Surroundings) (fork : BlockHash) (last : BlockIndexEntry)
    (lastHash : BlockHash) (state : BranchState) : Except ReorgFailure BranchState :=
  match pathFrom state fork (last.height + 1) lastHash with
  | .error error => .error { error }
  | .ok path => path.foldlM (connectStored surroundings) state

/-- A failed reorganisation leaves what there was before it, and marks the block that failed
validation. -/
def abortReorg (surroundings : Surroundings) (before : BranchState) (failure : ReorgFailure) :
    BranchState :=
  match failure.invalid with
  | none => before
  | some bad => markSubtreeInvalid surroundings.scan bad before

section Calls

variable (rules : BlockRules) (surroundings : Surroundings)

/-- Move the active chain to a block. -/
def reorgTo (target : BlockIndexEntry) (state : BranchState) :
    BranchState × Except ReorgFailure Unit :=
  match state.index state.tip with
  | none => (state, .error { error := .badPrevBlock })
  | some tipEntry =>
    match findFork rules state tipEntry target with
    | .error error => (state, .error { error })
    | .ok forkEntry =>
      match performReorg rules surroundings state forkEntry with
      | .error error => (state, .error { error })
      | .ok disconnected =>
        match reconnect surroundings (rules.blockHash forkEntry.header) target
            (rules.blockHash target.header) disconnected with
        | .error failure => (abortReorg surroundings state failure, .error failure)
        | .ok after => (after, .ok ())

/-- Move to the best chain, if the tip is not on it. -/
def activateBestChain (state : BranchState) : BranchState × Except ChainError Unit :=
  match findBestValidTip rules surroundings state with
  | .error error => (state, .error error)
  | .ok best =>
    if rules.blockHash best.header = state.tip then (state, .ok ())
    else
      let moved := reorgTo rules surroundings best state
      (moved.1, moved.2.mapError ReorgFailure.error)

variable (hash : BlockHash)

/-- Leave a block of the active chain for its parent. -/
def truncateToParent (entry : BlockIndexEntry) (state : BranchState) :
    BranchState × Except ChainError Unit :=
  if activeChainContains state hash entry.height then
    match state.index entry.header.prevBlockhash with
    | none => (state, .error .badPrevBlock)
    | some parent =>
      let moved := reorgTo rules surroundings parent state
      (moved.1, moved.2.mapError ReorgFailure.error)
  else (state, .ok ())

/-- Mark a branch and leave it. -/
def invalidateBlock (state : BranchState) : BranchState × Except ChainError Unit :=
  match state.index hash with
  | none => (state, .error .blockNotFound)
  | some entry =>
    if entry.height = 0 then (state, .error .invalidArgument)
    else
      let truncated := truncateToParent rules surroundings hash entry
        (markSubtreeInvalid surroundings.scan hash state)
      match truncated.2 with
      | .error _ => (truncated.1, .error .reactivationFailed)
      | .ok _ =>
        let activated := activateBestChain rules surroundings truncated.1
        match activated.2 with
        | .error _ => (activated.1, .error .reactivationFailed)
        | .ok _ => (recalculateBestHeader surroundings.scan activated.1, .ok ())

/-- Take the marks back from a branch, and move to it if it is the best. -/
def reconsiderBlock (state : BranchState) : BranchState × Except ChainError Unit :=
  match state.index hash with
  | none => (state, .error .blockNotFound)
  | some _ =>
    let activated := activateBestChain rules surroundings
      (clearSubtreeInvalid surroundings.scan hash state)
    match activated.2 with
    | .error _ => (activated.1, .error .reactivationFailed)
    | .ok _ => (recalculateBestHeader surroundings.scan activated.1, .ok ())

end Calls

/-! ## Blocks -/

inductive BlockAcceptance where
  | connected (hash : BlockHash) | stored (hash : BlockHash)
  deriving DecidableEq

def maxActivationAhead : Nat := 128

section Accept

variable (rules : BlockRules) (surroundings : Surroundings)

/-- The part of a branch, the oldest block first, up to the first without data. -/
def storedPrefix : List BlockHash → Option BlockIndexEntry
  | [] => none
  | hash :: rest =>
    (index hash).bind fun entry =>
      if BlockStatus.hasData entry.status then (storedPrefix rest).or (some entry) else none

/-- The highest block of the best header's branch with data down to the active chain. -/
def bestHeaderStoredPrefix (state : BranchState) (tipEntry : BlockIndexEntry) :
    Except ChainError (Option BlockIndexEntry) :=
  match state.index state.bestHeader.1 with
  | none => .ok none
  | some best =>
    if best.chainwork ≤ tipEntry.chainwork ∨ tipEntry.height + maxActivationAhead < best.height then
      .ok none
    else do
      let fork ← findFork rules state tipEntry best
      let path ← pathFrom state (rules.blockHash fork.header) (best.height + 1)
        (rules.blockHash best.header)
      return storedPrefix state.index path

/-- The better of what is chosen so far and a block that became connectable. -/
def betterOf (state : BranchState) (best : Option BlockIndexEntry) (hash : BlockHash) :
    Option BlockIndexEntry :=
  match (state.index hash).filter fun entry => BlockStatus.hasData entry.status with
  | none => best
  | some entry =>
    match best with
    | none => some entry
    | some chosen => if outranks rules surroundings state entry chosen then some entry else best

/-- The block to activate and the fork below it, when one outranks the tip. -/
def activationTarget (state : BranchState) (tipEntry : BlockIndexEntry) :
    Except ChainError (Option (BlockIndexEntry × BlockIndexEntry)) := do
  let stored ← bestHeaderStoredPrefix rules state tipEntry
  match surroundings.newlyConnectable.foldl (betterOf rules surroundings state) stored with
  | none => return none
  | some best =>
    if ¬ outranks rules surroundings state best tipEntry ∨
        tipEntry.height + maxActivationAhead < best.height then return none
    else
      let fork ← findFork rules state tipEntry best
      return some (best, fork)

/-- The first checkpoint at the height, if there is one, names the block. -/
def checkAgainstCheckpoints (height : Nat) (hash : BlockHash) : Bool :=
  match rules.checkpoints.find? fun checkpoint => checkpoint.height = height with
  | some checkpoint => hash = checkpoint.hash
  | none => true

variable (block : Block) (parent : BlockIndexEntry)

/-- The checks before a block is written, and whether a failure is a mark on the block. -/
def checkIncomingBlock (state : BranchState) : Except (ChainError × Bool) Unit := do
  let hash := rules.blockHash block.header
  let height := parent.height + 1
  let plain : Except ChainError Unit → Except (ChainError × Bool) Unit :=
    fun check => check.mapError (·, false)
  (rules.checkBlock block height).mapError fun failure => match failure with
    | .overweightBlock => (.validation "bad-blk-weight", true)
    | .other reason => (.validation reason, false)
  plain (rules.checkProofOfWork block.header)
  plain (rules.checkDifficulty block.header parent state.index)
  plain (if (state.index hash).isNone then
      checkForkAfterCheckpoint height (lastCheckpointInIndex rules.toHeaderRules state.store)
    else .ok ())
  plain (rules.checkHeaderContext block.header parent height surroundings.now state.index)
  plain (rules.checkSignetSolution block)
  plain (if rules.enforceCheckpoints ∧ ¬ checkAgainstCheckpoints rules height hash then
      .error (.checkpointMismatch height)
    else .ok ())
  (rules.checkBlockContext block height (rules.medianTimePastOf parent state.index)).mapError
    fun failure => (.connect, failure = .locktimeNotFinal ∨ failure = .badCoinbaseHeight)

variable (place : Nat × Nat)

/-- The entry of a block at a place in the block files. -/
def storedEntry : BlockIndexEntry where
  header := block.header
  height := parent.height + 1
  status := .dataStored
  numTx := block.txdata.length
  fileNumber := place.1
  dataPos := place.2
  chainwork := addU256 parent.chainwork (workForBits block.header.bits)

/-- Connect the new block on top of the tip. A failure leaves what there was before the
reorganisation it would have ended. -/
def connectNew (before state : BranchState) : BranchState × Except ChainError BlockAcceptance :=
  let hash := rules.blockHash block.header
  let entry := storedEntry block parent place
  if requireConnectedParent state block.header.prevBlockhash then
    match surroundings.connects hash with
    | .connected =>
      ((state.connect hash entry parent).updateBestHeader hash entry.chainwork entry.height,
        .ok (.connected hash))
    | .verdict => (markSubtreeInvalid surroundings.scan hash before, .error .connect)
    | _ => (before, .error .connect)
  else (before, .error .parentNeverConnected)

/-- A block on top of the tip. It is in the index before it is connected. -/
def extendTip (state : BranchState) : BranchState × Except ChainError BlockAcceptance :=
  let hash := rules.blockHash block.header
  let indexed := match state.index hash with
    | some _ => state
    | none => state.write { blockIndexPuts := [(hash, headerEntry block.header parent)] }
  connectNew rules surroundings block parent place indexed indexed

/-- Activate the branch a stored block completes. -/
def activateStored (target forkEntry : BlockIndexEntry) (state : BranchState) :
    BranchState × Except ChainError BlockAcceptance :=
  let hash := rules.blockHash block.header
  if rules.blockHash target.header ≠ hash then
    let moved := reorgTo rules surroundings target state
    match moved.2 with
    | .error failure =>
      (moved.1, if failure.invalid = some hash then .error failure.error else .ok (.stored hash))
    | .ok _ =>
      let after := moved.1.updateBestHeader (rules.blockHash target.header) target.chainwork
        target.height
      (after, .ok (if activeChainHashAtHeight after (parent.height + 1) = some hash
        then .connected hash else .stored hash))
  else
    match performReorg rules surroundings state forkEntry with
    | .error error => (state, .error error)
    | .ok disconnected =>
      match reconnect surroundings (rules.blockHash forkEntry.header) parent
          block.header.prevBlockhash disconnected with
      | .error failure => (abortReorg surroundings state failure, .error failure.error)
      | .ok reconnected => connectNew rules surroundings block parent place state reconnected

/-- A block on another branch: it is stored, and the best chain activated. -/
def acceptSide (state : BranchState) : BranchState × Except ChainError BlockAcceptance :=
  let hash := rules.blockHash block.header
  let entry := storedEntry block parent place
  let staged : HeaderScan :=
    { puts := [(hash, entry)], batchIndex := (∅ : Map _ _).insert hash entry
      best := some (hash, entry.chainwork), lastCheckpoint := none }
  match commitAcceptedHeaders state.toHeaderState staged true with
  | .error error => (state, .error error)
  | .ok headers =>
    let stored : BranchState := { state with toHeaderState := headers }
    match stored.index stored.tip with
    | none => (stored, .error .badPrevBlock)
    | some tipEntry =>
      match activationTarget rules surroundings stored tipEntry with
      | .error _ => (stored, .ok (.stored hash))
      | .ok none => (stored, .ok (.stored hash))
      | .ok (some (target, forkEntry)) =>
        activateStored rules surroundings block parent place target forkEntry stored

/-- Accept a block. -/
def acceptBlock (state : BranchState) : BranchState × Except ChainError BlockAcceptance :=
  let hash := rules.blockHash block.header
  if (state.index hash).any fun existing => existing.status ≠ .headerOnly then
    (state, .error .duplicate)
  else match state.index block.header.prevBlockhash with
    | none => (state, .error .prevBlockNotFound)
    | some parent =>
      if parent.status = .invalid then (state, .error .badPrevBlock)
      else match checkIncomingBlock rules surroundings block parent state with
        | .error (error, condemns) =>
          if condemns ∧ (state.index hash).any fun existing => existing.status = .headerOnly then
            (markSubtreeInvalid surroundings.scan hash state, .error error)
          else (state, .error error)
        | .ok _ =>
          match surroundings.written with
          | none => (state, .error .flatFile)
          | some place =>
            if block.header.prevBlockhash = state.tip then
              extendTip rules surroundings block parent place state
            else acceptSide rules surroundings block parent place state

end Accept

/-! ## Runs -/

/-- A call on the chain. -/
inductive ChainCall where
  | headers (call : HeaderCall)
  | block (surroundings : Surroundings) (block : Block)
  | invalidate (surroundings : Surroundings) (hash : BlockHash)
  | reconsider (surroundings : Surroundings) (hash : BlockHash)

def ChainCall.run (rules : BlockRules) (state : BranchState) : ChainCall → BranchState
  | .headers call =>
    { state with toHeaderState := call.run rules.toHeaderRules state.toHeaderState }
  | .block surroundings incoming => (acceptBlock rules surroundings incoming state).1
  | .invalidate surroundings hash => (invalidateBlock rules surroundings hash state).1
  | .reconsider surroundings hash => (reconsiderBlock rules surroundings hash state).1

/-- Only the genesis block is known. -/
def genesisState (rules : BlockRules) (genesis : Block) (place : Nat × Nat) : BranchState :=
  let hash := rules.blockHash genesis.header
  let work := workForBits genesis.header.bits
  { store :=
      { blockIndex := (∅ : Map _ _).insert hash
          ⟨genesis.header, 0, .valid, genesis.txdata.length, place.1, place.2, work⟩
        heightIndex := (∅ : Map _ _).insert 0 hash }
    bestHeader := (hash, work)
    headersTipHeight := 0
    tipHeight := 0
    tip := hash }

end Satd.Chain
