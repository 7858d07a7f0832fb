import Satd.Chain.Branches
import Satd.Storage.FlatFile

/-!
# Pruning

A prune reads the tip, takes down which file is appended to and which files have pending
records, scans the block index row by row, and then, under the accept lock, deletes the files
that hold only blocks at or below the cut and rewrites their entries. In between other threads
go on: writers append records under the lock of the files and commit their entries under the
accept lock later, holding the record pending meanwhile; holders of the accept lock mark
branches, take marks back, and disconnect and connect blocks.

Each of these is a step of its own, and a run is any list of steps. A step that is not enabled
does nothing. What a reorganisation writes tentatively is retracted by an abort, which goes
back to the checkpoint it began with.
-/

namespace Satd.Chain

open KeyedMap Satd.Bitcoin Satd.Storage

/-- The entry says that the block files hold the block. -/
def holdsRecord (entry : BlockIndexEntry) : Prop :=
  entry.status = .dataStored ∨ entry.status = .valid ∨ entry.status = .invalid ∧ 0 < entry.numTx

instance : DecidablePred holdsRecord := fun _ => inferInstanceAs (Decidable (_ ∨ _))

/-! ## Plans -/

/-- What a prune found out so far. -/
structure PrunePlan where
  pruneBelow : Nat
  plannedTip : BlockHash
  tipHeight : Nat
  appendFile : Nat
  pendingFiles : Finset Nat
  /-- The rows the index had when the scan began, which it will all visit. -/
  rows : Finset BlockHash
  visited : Finset BlockHash := ∅
  /-- For each file the highest block in it and its blocks. -/
  files : Map Nat (Nat × List BlockHash) := ∅

/-- A prune in progress. -/
inductive PruneProgress where
  | tipRead (pruneBelow : Nat) (plannedTip : BlockHash) (tipHeight : Nat)
  | filesRead (pruneBelow : Nat) (plannedTip : BlockHash) (tipHeight appendFile : Nat)
      (pendingFiles : Finset Nat)
  | scanning (plan : PrunePlan)

namespace PrunePlan

variable (plan : PrunePlan)

/-- Take down a row of the index. -/
def addRow (hash : BlockHash) (entry : BlockIndexEntry) : PrunePlan :=
  if holdsRecord entry then
    let file := (plan.files.lookup entry.fileNumber).getD (0, [])
    let grown := (max file.1 entry.height, file.2 ++ [hash])
    { plan with files := plan.files.insert entry.fileNumber grown }
  else plan

/-- Visit a row of the scan. -/
def visit (index : IndexLookup) (hash : BlockHash) : PrunePlan :=
  let seen := match index hash with
    | none => plan
    | some entry => plan.addRow hash entry
  { seen with visited := insert hash plan.visited }

/-- The file may not be deleted by this plan, as far as the files themselves tell. -/
def keepsFile (flatFiles : FlatFileManager) (file highest : Nat) : Prop :=
  plan.pruneBelow < highest ∨
    plan.appendFile ≤ file ∧ file ≤ flatFiles.currentFile ∨
    file ∈ plan.pendingFiles ∨
    (flatFiles.highestHeightWritten file).any fun written => plan.pruneBelow < written

instance (flatFiles : FlatFileManager) (file highest : Nat) :
    Decidable (plan.keepsFile flatFiles file highest) :=
  inferInstanceAs (Decidable (_ ∨ _ ∨ _ ∨ _))

end PrunePlan

/-- The entry of a block whose file is deleted, if it still names it. An invalid block keeps its
mark and loses its record. -/
def prunedEntry (index : IndexLookup) (file : Nat) (hash : BlockHash) : Option BlockIndexEntry :=
  (index hash).bind fun entry =>
    if entry.fileNumber ≠ file then none
    else match entry.status with
      | .dataStored | .valid => some { entry with status := .pruned }
      | .invalid =>
        if 0 < entry.numTx then some { entry with numTx := 0, fileNumber := 0, dataPos := 0 }
        else none
      | .headerOnly | .pruned => none

/-- The block files, and the entries to rewrite, while the files are gone through. -/
structure Deletion where
  flatFiles : FlatFileManager
  puts : List (BlockHash × BlockIndexEntry) := []
  deleted : Nat := 0

/-- Go through one file of the plan. -/
def PrunePlan.deleteFile (plan : PrunePlan) (index : IndexLookup) (deletion : Deletion)
  (file : Nat) :
    Deletion :=
  match plan.files.lookup file with
  | none => deletion
  | some (highest, blocks) =>
    if plan.keepsFile deletion.flatFiles file highest then deletion
    else if ¬ deletion.flatFiles.fileExists file then deletion
    else match deletion.flatFiles.deleteFile file with
      | none => deletion
      | some flatFiles =>
        { flatFiles
          puts := deletion.puts ++ rowsOf (prunedEntry index file) blocks
          deleted := deletion.deleted + 1 }

/-! ## Writers -/

/-- The ways a block is written. -/
inductive WriterKind where
  | store | repair | accept
  deriving DecidableEq, Repr

/-- A block whose record is written, with the entry that is to name it. A block has transactions. -/
structure StagedBlock where
  kind : WriterKind
  hash : BlockHash
  entry : BlockIndexEntry
  stored : entry.status = .dataStored
  counted : 0 < entry.numTx

/-! ## The system -/

structure PruneSystem where
  branch : BranchState
  flatFiles : FlatFileManager
  /-- Someone other than a prune or a writer that commits holds the accept lock. -/
  acceptLocked : Bool := false
  /-- What a reorganisation that is not finished goes back to. -/
  checkpoint : Option BranchState := none
  prunes : Map Nat PruneProgress := ∅
  writers : Map Nat StagedBlock := ∅
  /-- The records written since the files were opened that are not deleted, by file and height. -/
  written : List (Nat × Nat) := []

/-- The steps of all threads. Prunes and writers have numbers. -/
inductive PruneStep where
  | readTip (prune pruneBelow : Nat)
  | readFiles (prune : Nat)
  | beginScan (prune : Nat)
  | visitRow (prune : Nat) (hash : BlockHash)
  | execute (prune : Nat) (order : List Nat)
  | write (writer : Nat) (kind : WriterKind) (hash : BlockHash) (block : Block)
      (blockLength : Nat) (outcome : FlatFileManager.WriteOutcome)
  | commit (writer : Nat) (canonical connects : Bool)
  | release (writer : Nat)
  | lock
  | unlock
  | checkpoint
  | abort
  | mark (scan : IndexScan) (root : BlockHash)
  | clear (scan : IndexScan) (root : BlockHash)
  | header (hash : BlockHash) (header : Header)
  | disconnect
  | connect (hash : BlockHash)

namespace PruneSystem

variable (system : PruneSystem)

def index : IndexLookup := system.branch.index

/-! ### Prunes -/

variable (prune : Nat)

/-- A prune begins with the tip, unless the cut is not below it. -/
def readTip (pruneBelow : Nat) : PruneSystem :=
  if prune ∈ system.prunes ∨ system.branch.tipHeight ≤ pruneBelow then system
  else
    let progress := .tipRead pruneBelow system.branch.tip system.branch.tipHeight
    { system with prunes := system.prunes.insert prune progress }

/-- It takes down the files that may get a record the scan does not see. -/
def readFiles : PruneSystem :=
  match system.prunes.lookup prune with
  | some (.tipRead pruneBelow plannedTip tipHeight) =>
    let progress := .filesRead pruneBelow plannedTip tipHeight system.flatFiles.currentFile
      system.flatFiles.filesWithPendingRecords
    { system with prunes := system.prunes.insert prune progress }
  | _ => system

def beginScan : PruneSystem :=
  match system.prunes.lookup prune with
  | some (.filesRead pruneBelow plannedTip tipHeight appendFile pendingFiles) =>
    let plan : PrunePlan :=
      { pruneBelow, plannedTip, tipHeight, appendFile, pendingFiles
        rows := system.branch.store.blockIndex.keys }
    { system with prunes := system.prunes.insert prune (.scanning plan) }
  | _ => system

/-- A row is visited once, and read as it is then. -/
def visitRow (hash : BlockHash) : PruneSystem :=
  match system.prunes.lookup prune with
  | some (.scanning plan) =>
    if hash ∈ plan.visited then system
    else { system with
      prunes := system.prunes.insert prune (.scanning (plan.visit system.index hash)) }
  | _ => system

/-- The files are gone through in some order, and the entries rewritten. -/
def deleteFiles (plan : PrunePlan) (order : List Nat) : PruneSystem :=
  let deletion := order.foldl (plan.deleteFile system.index) { flatFiles := system.flatFiles }
  { system with
    flatFiles := deletion.flatFiles
    branch := system.branch.write { blockIndexPuts := deletion.puts }
    written := system.written.filter fun record => record.1 ∈ deletion.flatFiles.files }

/-- When the scan is done and the accept lock free, the plan is carried out, if the planned tip
is still in its place. -/
def execute (order : List Nat) : PruneSystem :=
  match system.prunes.lookup prune with
  | some (.scanning plan) =>
    if plan.rows ⊆ plan.visited ∧ ¬ system.acceptLocked then
      let finished := { system with prunes := system.prunes.erase prune }
      if system.branch.store.getBlockHashByHeight plan.tipHeight = some plan.plannedTip then
        finished.deleteFiles plan order
      else finished
    else system
  | _ => system

/-! ### Writers -/

variable (writer : Nat)

/-- A record is written, and pending. The entry that will name it is made up. -/
def writeRecord (staged : FlatFilePos → StagedBlock) (blockLength height : Nat)
    (outcome : FlatFileManager.WriteOutcome) : PruneSystem :=
  match system.flatFiles.writeBlockPending blockLength height outcome with
  | (flatFiles, none) => { system with flatFiles }
  | (flatFiles, some pos) =>
    { system with
      flatFiles
      writers := system.writers.insert writer (staged pos)
      written := (pos.fileNumber, height) :: system.written }

/-- A block with a known parent is written by a new writer. -/
def write (kind : WriterKind) (hash : BlockHash) (block : Block) (blockLength : Nat)
    (outcome : FlatFileManager.WriteOutcome) : PruneSystem :=
  match system.index block.header.prevBlockhash with
  | none => system
  | some parent =>
    if counted : 0 < block.txdata.length ∧ writer ∉ system.writers then
      let staged (pos : FlatFilePos) : StagedBlock :=
        { kind, hash
          entry := storedEntry block parent (pos.fileNumber, pos.dataPos)
          stored := rfl
          counted := counted.1 }
      system.writeRecord writer staged blockLength (parent.height + 1) outcome
    else system

variable (hash : BlockHash)

/-- The block has no data yet. -/
def lacksData : Bool := (system.index hash).all fun existing => existing.status = .headerOnly

variable (staged : StagedBlock)

/-- A stored block gets its entry, unless it has got data meanwhile. -/
def commitStore : PruneSystem :=
  if system.acceptLocked ∨ ¬ system.lacksData staged.hash then system
  else
    let height := staged.entry.height
    let puts := if system.branch.tipHeight < height ∧
        system.branch.store.getBlockHashByHeight height = none then [(height, staged.hash)] else []
    let batch := { blockIndexPuts := [(staged.hash, staged.entry)], heightHash := { puts } }
    { system with branch := system.branch.write batch }

/-- A repaired block has its entry moved to the new record, unless a good one is there. -/
def commitRepair (canonical : Bool) : PruneSystem :=
  match system.index staged.hash with
  | none => system
  | some entry =>
    if system.acceptLocked ∨ ¬ BlockStatus.hasData entry.status ∨ canonical ∨
        entry.height ≠ staged.entry.height then system
    else
      let repaired := { entry with
        fileNumber := staged.entry.fileNumber
        dataPos := staged.entry.dataPos
        numTx := staged.entry.numTx }
      { system with branch := system.branch.write { blockIndexPuts := [(staged.hash, repaired)] } }

/-- A block that is accepted is stored on its branch, or connected on the tip. Its writer holds
the accept lock. -/
def commitAccept (connects : Bool) : PruneSystem :=
  if ¬ system.acceptLocked ∨ ¬ system.lacksData staged.hash then system
  else if connects then
    match system.index staged.entry.header.prevBlockhash with
    | none => system
    | some parent =>
      { system with branch := system.branch.connect staged.hash staged.entry parent }
  else
    { system with branch :=
      system.branch.write { blockIndexPuts := [(staged.hash, staged.entry)] } }

def commit (canonical connects : Bool) : PruneSystem :=
  match system.writers.lookup writer with
  | none => system
  | some staged => match staged.kind with
    | .store => system.commitStore staged
    | .repair => system.commitRepair staged canonical
    | .accept => system.commitAccept staged connects

/-- A writer lets go of its record, after the commit or without one. -/
def release : PruneSystem :=
  match system.writers.lookup writer with
  | none => system
  | some staged =>
    { system with
      flatFiles := system.flatFiles.dropPending staged.entry.fileNumber
      writers := system.writers.erase writer }

/-! ### Holders of the accept lock -/

/-- Change the branches under the accept lock. -/
def underLock (change : BranchState → BranchState) : PruneSystem :=
  if system.acceptLocked then { system with branch := change system.branch } else system

/-- A header that is not known yet. -/
def addHeader (header : Header) (branch : BranchState) : BranchState :=
  match branch.index hash, branch.index header.prevBlockhash with
  | none, some parent => branch.write { blockIndexPuts := [(hash, headerEntry header parent)] }
  | _, _ => branch

variable (branch : BranchState)

/-- The tip is disconnected. -/
def disconnectTip : BranchState :=
  match branch.index branch.tip with
  | none => branch
  | some entry =>
    { branch.write { heightHash := { removes := [entry.height] } } with
      tip := entry.header.prevBlockhash, tipHeight := entry.height - 1 }

/-- A block on the tip is read from its record and connected. -/
def connectTip : BranchState :=
  match branch.index hash with
  | none => branch
  | some entry =>
    match branch.index entry.header.prevBlockhash with
    | none => branch
    | some parent =>
      if holdsRecord entry ∧ entry.header.prevBlockhash = branch.tip then
        branch.connect hash entry parent
      else branch

/-- What the reorganisation wrote is retracted. -/
def abort : PruneSystem :=
  match system.checkpoint with
  | none => system
  | some before => { system with branch := before, checkpoint := none }

def step : PruneStep → PruneSystem
  | .readTip prune pruneBelow => system.readTip prune pruneBelow
  | .readFiles prune => system.readFiles prune
  | .beginScan prune => system.beginScan prune
  | .visitRow prune hash => system.visitRow prune hash
  | .execute prune order => system.execute prune order
  | .write writer kind hash block blockLength outcome =>
    system.write writer kind hash block blockLength outcome
  | .commit writer canonical connects => system.commit writer canonical connects
  | .release writer => system.release writer
  | .lock => { system with acceptLocked := true }
  | .unlock => { system with acceptLocked := false, checkpoint := none }
  | .checkpoint =>
    if system.acceptLocked then { system with checkpoint := some system.branch } else system
  | .abort => system.abort
  | .mark scan root => system.underLock (markSubtreeInvalid scan root)
  | .clear scan root => system.underLock (clearSubtreeInvalid scan root)
  | .header hash header => system.underLock (addHeader hash header)
  | .disconnect => system.underLock disconnectTip
  | .connect hash => system.underLock (connectTip hash)

end PruneSystem

end Satd.Chain
