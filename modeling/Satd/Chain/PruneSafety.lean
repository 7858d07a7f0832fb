import Satd.Chain.Invalidity
import Satd.Chain.Prune

/-!
# A prune leaves no entry over a deleted file

Every entry that says the block files hold its block names a file that exists, whatever the
threads do in between. What carries this is an invariant of each prune in progress: a block
whose entry names a file that the prune may delete was in the index when the scan began, and
once its row is visited it is in the plan for that file. An entry that is committed later names
a record that was pending when the files were read, or one written since, and those files the
prune keeps.
-/

namespace Satd.Chain

open KeyedMap Satd.Bitcoin Satd.Storage List Option

/-! ## Records -/

/-- The entry says that the file holds the block, which has the height. -/
structure RecordedAt (entry : BlockIndexEntry) (file height : Nat) : Prop where
  holds : holdsRecord entry
  file : entry.fileNumber = file
  height : entry.height = height

/-- The block is held by the file and has the height. -/
def Recorded (index : IndexLookup) (hash : BlockHash) (file height : Nat) : Prop :=
  ∃ entry, index hash = some entry ∧ RecordedAt entry file height

/-- A count of transactions goes with the data of a block, and a bare header has none. -/
structure CountedEntry (entry : BlockIndexEntry) : Prop where
  bare : entry.status = .headerOnly → entry.numTx = 0
  stored : BlockStatus.hasData entry.status → 0 < entry.numTx

def Counted (index : IndexLookup) : Prop :=
  ∀ hash entry, index hash = some entry → CountedEntry entry

variable {entry : BlockIndexEntry} {before : IndexLookup} {hash : BlockHash} {file height : Nat}
  {plan : PrunePlan} {system : PruneSystem}

/-- A block that holds a record has transactions. -/
theorem CountedEntry.pos (counted : CountedEntry entry) (holds : holdsRecord entry) :
    0 < entry.numTx := by
  obtain stored | valid | ⟨-, positive⟩ := holds
  · exact counted.stored (by simp [BlockStatus.hasData, stored])
  · exact counted.stored (by simp [BlockStatus.hasData, valid])
  · exact positive

/-- The same blocks are held by the same files. -/
structure Carried (before after : IndexLookup) : Prop where
  counted : Counted after
  same : ∀ hash file height, Recorded after hash file height ↔ Recorded before hash file height

theorem Carried.of_eq {after : IndexLookup} (counted : Counted before) (equal : after = before) :
    Carried before after := by
  subst equal
  exact ⟨counted, fun _ _ _ => .rfl⟩

/-- An entry that replaces one in the same place. -/
theorem recordedAt_iff {old : BlockIndexEntry} (known : before hash = some old)
    (sameFile : entry.fileNumber = old.fileNumber) (sameHeight : entry.height = old.height)
    (holds : holdsRecord entry ↔ holdsRecord old) :
    RecordedAt entry file height ↔ Recorded before hash file height := by
  constructor
  · exact fun at_ => ⟨old, known, holds.mp at_.holds, sameFile ▸ at_.file, sameHeight ▸ at_.height⟩
  · rintro ⟨found, isFound, at_⟩
    rw [known, some.injEq] at isFound
    subst isFound
    exact ⟨holds.mpr at_.holds, sameFile.trans at_.file, sameHeight.trans at_.height⟩

/-- Rewritten entries that hold what the old ones held. -/
theorem carried_of_puts {after : IndexLookup} (puts : List (BlockHash × BlockIndexEntry))
    (counted : Counted before) (written : ∀ hash, after hash = (lastPut hash puts).or (before hash))
    (each : ∀ hash entry, (hash, entry) ∈ puts → CountedEntry entry ∧
      ∀ file height, RecordedAt entry file height ↔ Recorded before hash file height) :
    Carried before after := by
  have cases : ∀ hash, (∃ entry, (hash, entry) ∈ puts ∧ after hash = some entry) ∨
      after hash = before hash := by
    intro hash
    cases found : lastPut hash puts with
    | none => exact .inr (by simp [written, found])
    | some entry => exact .inl ⟨entry, mem_of_lastPut found, by simp [written, found]⟩
  constructor
  · intro hash entry known
    obtain ⟨put, member, equal⟩ | equal := cases hash
    · rw [equal, some.injEq] at known
      exact known ▸ (each hash put member).1
    · exact counted hash entry (equal ▸ known)
  · intro hash file height
    obtain ⟨put, member, equal⟩ | equal := cases hash
    · rw [← (each hash put member).2]
      simp [Recorded, equal]
    · simp [Recorded, equal]

section Holders

variable {branch : BranchState}

section

variable (counted : Counted branch.index)
include counted

variable {root : BlockHash} {scan : IndexScan}

/-- A marked block keeps its record. -/
theorem mark_carried : Carried branch.index (markSubtreeInvalid scan root branch).index := by
  have same : (markSubtreeInvalid scan root branch).index =
    (writeMarks scan root branch).index := by
    rw [markSubtreeInvalid]
    split
    · rw [recalculate_index]
    · rfl
  rw [same]
  refine carried_of_puts _ counted (index_write branch _) ?_
  intro hash entry member
  obtain ⟨-, marked⟩ := mem_rowsOf.mp member
  obtain ⟨old, known, chosen⟩ := bind_eq_some_iff.mp marked
  split_ifs at chosen with unmarked
  cases chosen
  have oldCounted := counted hash old known
  refine ⟨⟨by simp, by simp [BlockStatus.hasData]⟩, fun file height => ?_⟩
  -- An unmarked block that is not pruned has transactions exactly when it has data.
  have holds : holdsRecord { old with status := .invalid } ↔ holdsRecord old := by
    constructor
    · rintro (stored | valid | ⟨-, positive⟩)
      · cases stored
      · cases valid
      · cases status : old.status with
        | headerOnly =>
          have := oldCounted.bare status
          simp only at positive
          omega
        | dataStored => exact .inl status
        | valid => exact .inr (.inl status)
        | invalid => exact absurd status unmarked.1
        | pruned => exact absurd status unmarked.2
    · exact fun holds => .inr (.inr ⟨rfl, oldCounted.pos holds⟩)
  exact recordedAt_iff known rfl rfl holds

/-- A block whose mark is taken back keeps its record. -/
theorem clear_carried : Carried branch.index (clearSubtreeInvalid scan root branch).index := by
  refine carried_of_puts _ counted (index_write branch _) ?_
  intro hash entry member
  obtain ⟨-, cleared⟩ := mem_rowsOf.mp member
  obtain ⟨old, known, chosen⟩ := bind_eq_some_iff.mp cleared
  split_ifs at chosen with marked bare
  · cases chosen
    refine ⟨⟨fun _ => bare, by simp [BlockStatus.hasData]⟩, fun file height => ?_⟩
    exact recordedAt_iff known rfl rfl (by simp [holdsRecord, bare, marked])
  · cases chosen
    have positive : 0 < old.numTx := by omega
    refine ⟨⟨by simp, fun _ => positive⟩, fun file height => ?_⟩
    exact recordedAt_iff known rfl rfl (by simp [holdsRecord, marked, positive])

theorem addHeader_carried {hash : BlockHash} {header : Header} :
    Carried branch.index (PruneSystem.addHeader hash header branch).index := by
  rw [PruneSystem.addHeader]
  split
  · rename_i parent unknown known
    refine carried_of_puts _ counted (index_write branch _) ?_
    intro other entry member
    obtain ⟨rfl, rfl⟩ := Prod.mk.inj (mem_singleton.mp member)
    refine ⟨⟨fun _ => rfl, by simp [headerEntry, BlockStatus.hasData]⟩, fun file height => ?_⟩
    constructor
    · rintro ⟨holds, -, -⟩
      simp [holdsRecord, headerEntry] at holds
    · rintro ⟨entry, found, -⟩
      rw [unknown] at found
      cases found
  · exact .of_eq counted rfl

/-- A block that is connected was read from its record. -/
theorem connect_carried (known : branch.index hash = some entry)
    (holds : holdsRecord entry) {parent : BlockIndexEntry} :
    Carried branch.index (branch.connect hash entry parent).index := by
  refine carried_of_puts _ counted (index_write branch _) ?_
  intro other put member
  obtain ⟨rfl, rfl⟩ := Prod.mk.inj (mem_singleton.mp member)
  have positive := (counted other entry known).pos holds
  refine ⟨⟨by simp, fun _ => positive⟩, fun file height => ?_⟩
  exact recordedAt_iff known rfl rfl (iff_of_true (.inr (.inl rfl)) holds)

theorem connectTip_carried {hash : BlockHash} :
    Carried branch.index (PruneSystem.connectTip hash branch).index := by
  rw [PruneSystem.connectTip]
  split
  · exact .of_eq counted rfl
  · rename_i entry known
    split
    · exact .of_eq counted rfl
    · split_ifs with stored
      · exact connect_carried counted known stored.1
      · exact .of_eq counted rfl

theorem disconnectTip_carried : Carried branch.index (PruneSystem.disconnectTip branch).index := by
  rw [PruneSystem.disconnectTip]
  split
  · exact .of_eq counted rfl
  · refine carried_of_puts [] counted (fun hash => ?_) (by simp)
    exact index_write branch _ hash

end

end Holders

/-! ## Prunes in progress -/

/-- The prune keeps the file: it had a pending record, or is appended to since. -/
def Shielded (appendFile : Nat) (pendingFiles : Finset Nat) (system : PruneSystem) (file : Nat) :
    Prop :=
  file ∈ pendingFiles ∨ appendFile ≤ file ∧ file ≤ system.flatFiles.currentFile

/-- The records that are not committed yet are in files the prune keeps. -/
structure Guarded (appendFile : Nat) (pendingFiles : Finset Nat) (system : PruneSystem) : Prop where
  append : appendFile ≤ system.flatFiles.currentFile
  writers : ∀ {writer staged}, system.writers.lookup writer = some staged →
    Shielded appendFile pendingFiles system staged.entry.fileNumber

/-- The block is in the plan for the file, whose highest block is no lower. -/
def Listed (plan : PrunePlan) (hash : BlockHash) (file height : Nat) : Prop :=
  ∃ highest blocks, plan.files.lookup file = some (highest, blocks) ∧ hash ∈ blocks ∧
    height ≤ highest

/-- The scan misses no block in a file that the prune may delete. -/
structure Covering (plan : PrunePlan) (system : PruneSystem) : Prop
    extends Guarded plan.appendFile plan.pendingFiles system where
  rows : ∀ {hash file height}, Recorded system.index hash file height →
    ¬ Shielded plan.appendFile plan.pendingFiles system file → hash ∈ plan.rows
  listed : ∀ {hash file height}, Recorded system.index hash file height →
    ¬ Shielded plan.appendFile plan.pendingFiles system file → hash ∈ plan.visited →
    Listed plan hash file height

def ProgressSafe (system : PruneSystem) : PruneProgress → Prop
  | .tipRead .. => True
  | .filesRead _ _ _ appendFile pendingFiles => Guarded appendFile pendingFiles system
  | .scanning plan => Covering plan system

/-- What a step may do as far as the prunes in progress are concerned: the append moves up, a new
writer writes to the file it moved to, and a block that comes to be held by a file has its record
written by a writer. -/
structure Onward (before after : PruneSystem) : Prop where
  upward : before.flatFiles.currentFile ≤ after.flatFiles.currentFile
  writers : ∀ {writer staged}, after.writers.lookup writer = some staged →
    (∃ earlier, before.writers.lookup earlier = some staged) ∨
      staged.entry.fileNumber = after.flatFiles.currentFile
  records : ∀ {hash file height}, Recorded after.index hash file height →
    Recorded before.index hash file height ∨
      ∃ writer staged, before.writers.lookup writer = some staged ∧ staged.entry.fileNumber = file

section Onward

variable {before after : PruneSystem} {appendFile : Nat} {pendingFiles : Finset Nat}

section

variable (onward : Onward before after)
include onward

theorem Onward.shielded (shielded : Shielded appendFile pendingFiles before file) :
    Shielded appendFile pendingFiles after file :=
  shielded.imp_right fun within => ⟨within.1, within.2.trans onward.upward⟩

theorem Onward.guarded
    (guarded : Guarded appendFile pendingFiles before) : Guarded appendFile pendingFiles after where
  append := guarded.append.trans onward.upward
  writers := by
    intro writer staged known
    obtain ⟨earlier, known⟩ | appended := onward.writers known
    · exact onward.shielded (guarded.writers known)
    · rw [appended]
      exact .inr ⟨guarded.append.trans onward.upward, le_rfl⟩

/-- A block held by a file that is not kept was held by it before. -/
theorem Onward.recorded (guarded : Guarded appendFile pendingFiles before)
    (recorded : Recorded after.index hash file height)
    (exposed : ¬ Shielded appendFile pendingFiles after file) :
    Recorded before.index hash file height ∧ ¬ Shielded appendFile pendingFiles before file := by
  have exposedBefore : ¬ Shielded appendFile pendingFiles before file :=
    fun shielded => exposed (onward.shielded shielded)
  obtain recorded | ⟨writer, staged, known, rfl⟩ := onward.records recorded
  · exact ⟨recorded, exposedBefore⟩
  · exact absurd (guarded.writers known) exposedBefore

theorem Onward.progress {progress : PruneProgress}
    (safe : ProgressSafe before progress) : ProgressSafe after progress := by
  cases progress with
  | tipRead => trivial
  | filesRead => exact onward.guarded safe
  | scanning plan =>
    have covering : Covering plan before := safe
    refine ⟨onward.guarded covering.toGuarded, fun recorded exposed => ?_,
      fun recorded exposed visited => ?_⟩
    · obtain ⟨recorded, exposed⟩ := onward.recorded covering.toGuarded recorded exposed
      exact covering.rows recorded exposed
    · obtain ⟨recorded, exposed⟩ := onward.recorded covering.toGuarded recorded exposed
      exact covering.listed recorded exposed visited

end

/-- What changes neither the records nor their writers keeps every plan safe. -/
theorem ProgressSafe.of_same {progress : PruneProgress} (safe : ProgressSafe before progress)
    (file : after.flatFiles.currentFile = before.flatFiles.currentFile)
    (writers : after.writers = before.writers) (index : after.index = before.index) :
    ProgressSafe after progress :=
  Onward.progress ⟨file.ge, fun known => .inl ⟨_, writers ▸ known⟩,
    fun recorded => .inl (index ▸ recorded)⟩ safe

end Onward

/-! ## The invariant -/

/-- One for a writer whose record is in the file. -/
def writesTo (file : Nat) (_ : Nat) (staged : StagedBlock) : Nat :=
  if staged.entry.fileNumber = file then 1 else 0

structure PruneSafe (system : PruneSystem) : Prop where
  counted : Counted system.index
  /-- An unfinished reorganisation goes back to a state in which no other block had a record. -/
  checkpoint : ∀ {before}, system.checkpoint = some before → Counted before.index ∧
    ∀ {hash file height}, Recorded before.index hash file height →
      Recorded system.index hash file height
  unlocked : system.acceptLocked = false → system.checkpoint = none
  named : ∀ {hash file height}, Recorded system.index hash file height →
    file ∈ system.flatFiles.files
  writers : ∀ {writer staged}, system.writers.lookup writer = some staged →
    staged.entry.fileNumber ∈ system.flatFiles.files
  pending : ∀ file, (system.flatFiles.pending.lookup file).getD 0 =
    total (writesTo file) system.writers
  pendingPos : ∀ file, system.flatFiles.pending.lookup file ≠ some 0
  written : ∀ record ∈ system.written, ∃ highest,
    system.flatFiles.highestHeight.lookup record.1 = some highest ∧ record.2 ≤ highest
  prunes : ∀ {prune progress}, system.prunes.lookup prune = some progress →
    ProgressSafe system progress

namespace PruneSafe

variable {branch : BranchState} {writer : Nat} {staged : StagedBlock} {index : IndexLookup}
  {deletion : Deletion}

section

variable (safe : PruneSafe system)
include safe

/-- A change of the branches that makes no block held by a file but those of writers. -/
theorem rebranch (counted : Counted branch.index)
    (records : ∀ {hash file height}, Recorded branch.index hash file height →
      Recorded system.index hash file height ∨
        ∃ writer staged, system.writers.lookup writer = some staged ∧
          staged.entry.fileNumber = file)
    (forth : system.checkpoint = none ∨ ∀ {hash file height},
      Recorded system.index hash file height → Recorded branch.index hash file height) :
    PruneSafe { system with branch } where
  counted := counted
  checkpoint := by
    intro before known
    obtain none | forth := forth
    · simp [none] at known
    · have earlier := safe.checkpoint known
      exact ⟨earlier.1, fun recorded => forth (earlier.2 recorded)⟩
  unlocked := safe.unlocked
  named := by
    intro hash file height recorded
    obtain recorded | ⟨writer, staged, known, rfl⟩ := records recorded
    · exact safe.named recorded
    · exact safe.writers known
  writers := safe.writers
  pending := safe.pending
  pendingPos := safe.pendingPos
  written := safe.written
  prunes := by
    intro prune progress known
    have onward : Onward system { system with branch } :=
      ⟨le_rfl, fun known => .inl ⟨_, known⟩, records⟩
    exact onward.progress (safe.prunes known)

theorem carried (carried : Carried system.index branch.index) : PruneSafe { system with branch } :=
  safe.rebranch carried.counted (fun recorded => .inl ((carried.same ..).mp recorded))
    (.inr fun recorded => (carried.same ..).mpr recorded)

theorem underLock {change : BranchState → BranchState}
    (carries : Carried system.index (change system.branch).index) :
    PruneSafe (system.underLock change) := by
  rw [PruneSystem.underLock]
  split_ifs
  · exact safe.carried carries
  · exact safe

theorem abort : PruneSafe system.abort := by
  rw [PruneSystem.abort]
  split
  · exact safe
  · rename_i before known
    obtain ⟨counted, kept⟩ := safe.checkpoint known
    have retracted : PruneSafe { system with checkpoint := none } :=
      { safe with
        checkpoint := fun known => nomatch known
        unlocked := fun _ => rfl
        prunes := fun known => (safe.prunes known).of_same rfl rfl rfl }
    exact retracted.rebranch counted (fun recorded => .inl (kept recorded)) (.inl rfl)

/-- What changes only the prunes in progress. -/
theorem setProgress {prune : Nat} {progress : PruneProgress}
    (progressSafe : ProgressSafe system progress) :
    PruneSafe { system with prunes := system.prunes.insert prune progress } := by
  refine { safe with prunes := ?_ }
  intro other otherProgress known
  simp only [KeyedMap.lookup_insert] at known
  split_ifs at known
  · cases known
    exact progressSafe.of_same rfl rfl rfl
  · exact (safe.prunes known).of_same rfl rfl rfl

theorem readTip (prune pruneBelow : Nat) : PruneSafe (system.readTip prune pruneBelow) := by
  rw [PruneSystem.readTip]
  split_ifs
  · exact safe
  · exact safe.setProgress trivial

/-- A record that is not committed is pending. -/
theorem pending_of_writer (known : system.writers.lookup writer = some staged) :
    staged.entry.fileNumber ∈ system.flatFiles.filesWithPendingRecords := by
  have here := total_erase (writesTo staged.entry.fileNumber) system.writers writer
  rw [weightAt_of_lookup known, ← safe.pending, writesTo, if_pos rfl] at here
  rw [FlatFileManager.filesWithPendingRecords, Finmap.mem_keys, ← Finmap.lookup_isSome]
  cases count : system.flatFiles.pending.lookup staged.entry.fileNumber with
  | none =>
    rw [count, getD_none] at here
    omega
  | some count => rfl

theorem readFiles (prune : Nat) : PruneSafe (system.readFiles prune) := by
  rw [PruneSystem.readFiles]
  split
  · exact safe.setProgress ⟨le_rfl, fun known => .inl (safe.pending_of_writer known)⟩
  · exact safe

theorem beginScan (prune : Nat) : PruneSafe (system.beginScan prune) := by
  rw [PruneSystem.beginScan]
  split
  · rename_i known
    have guarded : Guarded _ _ system := safe.prunes known
    refine safe.setProgress ⟨guarded, ?_, ?_⟩
    · rintro hash file height ⟨entry, found, -⟩ -
      exact Finmap.mem_keys.mpr (Finmap.mem_of_lookup_eq_some found)
    · intro hash file height _ _ visited
      cases visited
  · exact safe

end

variable {other : BlockHash}

/-- A row taken down leaves what was in the plan there. -/
theorem listed_addRow (listed : Listed plan other file height) :
    Listed (plan.addRow hash entry) other file height := by
  obtain ⟨highest, blocks, known, member, lower⟩ := listed
  rw [PrunePlan.addRow]
  split_ifs
  · by_cases same : entry.fileNumber = file
    · subst same
      refine ⟨max highest entry.height, blocks ++ [hash], ?_, mem_append_left _ member,
        lower.trans (le_max_left _ _)⟩
      simp [known]
    · refine ⟨highest, blocks, ?_, member, lower⟩
      rw [KeyedMap.lookup_insert, if_neg same]
      exact known
  · exact ⟨highest, blocks, known, member, lower⟩

theorem listed_added {plan : PrunePlan} {hash : BlockHash}
    (recorded : RecordedAt entry file height) :
    Listed (plan.addRow hash entry) hash file height := by
  obtain ⟨holds, rfl, rfl⟩ := recorded
  rw [PrunePlan.addRow, if_pos holds]
  exact ⟨_, _, Finmap.lookup_insert _, mem_append_right _ (mem_singleton.mpr rfl), le_max_right _ _⟩

theorem visit_eq {plan : PrunePlan} {index : IndexLookup} {hash : BlockHash} :
    ∃ files, plan.visit index hash = { plan with files, visited := insert hash plan.visited } := by
  simp only [PrunePlan.visit]
  split
  · exact ⟨_, rfl⟩
  · rw [PrunePlan.addRow]
    split_ifs <;> exact ⟨_, rfl⟩

theorem visit_listed (listed : Listed plan other file height) :
    Listed (plan.visit index hash) other file height := by
  rw [PrunePlan.visit]
  cases found : index hash with
  | none => exact listed
  | some entry => exact listed_addRow listed

theorem visit_covering (covering : Covering plan system) {hash : BlockHash} :
    Covering (plan.visit system.index hash) system := by
  obtain ⟨files, equal⟩ := visit_eq
  have listed : ∀ {other file height}, Recorded system.index other file height →
      ¬ Shielded plan.appendFile plan.pendingFiles system file → other ∈ insert hash plan.visited →
      Listed (plan.visit system.index hash) other file height := by
    intro other file height recorded exposed visited
    obtain rfl | visited := Finset.mem_insert.mp visited
    · obtain ⟨entry, known, here⟩ := recorded
      rw [PrunePlan.visit, known]
      exact listed_added here
    · exact visit_listed (covering.listed recorded exposed visited)
  rw [equal] at listed ⊢
  exact ⟨⟨covering.append, covering.writers⟩, covering.rows, listed⟩

theorem visitRow (safe : PruneSafe system) (prune : Nat) (hash : BlockHash) :
    PruneSafe (system.visitRow prune hash) := by
  rw [PruneSystem.visitRow]
  split
  · rename_i plan known
    split_ifs
    · exact safe
    · exact safe.setProgress (visit_covering (safe.prunes known))
  · exact safe

/-! ### Writers -/

/-- A committed entry names the record of its writer. -/
theorem commitEntry (safe : PruneSafe system) (known : system.writers.lookup writer = some staged)
    (written : ∀ hash, branch.index hash =
      (lastPut hash [(staged.hash, entry)]).or (system.index hash))
    (file : entry.fileNumber = staged.entry.fileNumber) (counted : CountedEntry entry)
    (forth : system.checkpoint = none ∨ ∀ {file height},
      ¬ Recorded system.index staged.hash file height) :
    PruneSafe { system with branch } := by
  have cases : ∀ hash, hash = staged.hash ∧ branch.index hash = some entry ∨
      hash ≠ staged.hash ∧ branch.index hash = system.index hash := by
    intro hash
    by_cases same : hash = staged.hash
    · exact .inl ⟨same, by simp [written, lastPut, same]⟩
    · exact .inr ⟨same, by simp [written, lastPut, Ne.symm same]⟩
  refine safe.rebranch ?_ ?_ ?_
  · intro hash other found
    obtain ⟨-, equal⟩ | ⟨-, equal⟩ := cases hash
    · rw [equal, some.injEq] at found
      exact found ▸ counted
    · exact safe.counted hash other (equal ▸ found)
  · rintro hash at_ height ⟨other, found, recorded⟩
    obtain ⟨-, equal⟩ | ⟨-, equal⟩ := cases hash
    · rw [equal, some.injEq] at found
      subst found
      exact .inr ⟨writer, staged, known, file ▸ recorded.file⟩
    · exact .inl ⟨other, equal ▸ found, recorded⟩
  · refine forth.imp_right fun unrecorded => ?_
    rintro hash at_ height ⟨other, found, recorded⟩
    obtain ⟨rfl, -⟩ | ⟨-, equal⟩ := cases hash
    · exact absurd ⟨other, found, recorded⟩ unrecorded
    · exact ⟨other, equal.trans found, recorded⟩

/-- A block that lacks data is held by no file. -/
theorem unrecorded_of_lacksData (lacks : system.lacksData hash) :
    ¬ Recorded system.index hash file height := by
  rintro ⟨entry, found, recorded⟩
  simp only [PruneSystem.lacksData, found, all_some, decide_eq_true_eq] at lacks
  have holds := recorded.holds
  simp [holdsRecord, lacks] at holds

theorem counted_staged {staged : StagedBlock} : CountedEntry staged.entry where
  bare := by
    intro bare
    rw [staged.stored] at bare
    cases bare
  stored := fun _ => staged.counted

section

variable (safe : PruneSafe system)
include safe

theorem commit (writer : Nat) (canonical connects : Bool) :
    PruneSafe (system.commit writer canonical connects) := by
  rw [PruneSystem.commit]
  split
  · exact safe
  · rename_i staged known
    split
    · rw [PruneSystem.commitStore]
      split_ifs with refused
      · exact safe
      · push Not at refused
        have free : system.acceptLocked = false := by simpa using refused.1
        exact safe.commitEntry known (index_write system.branch _) rfl (counted_staged)
          (.inl (safe.unlocked free))
    · rw [PruneSystem.commitRepair]
      split
      · exact safe
      · rename_i entry found
        split_ifs with refused
        · exact safe
        · push Not at refused
          have free : system.acceptLocked = false := by simpa using refused.1
          have data : BlockStatus.hasData entry.status := by simpa using refused.2.1
          refine safe.commitEntry known (index_write system.branch _) rfl ?_
            (.inl (safe.unlocked free))
          refine ⟨fun bare => ?_, fun _ => staged.counted⟩
          have bare : entry.status = .headerOnly := bare
          simp [BlockStatus.hasData, bare] at data
    · rw [PruneSystem.commitAccept]
      split_ifs with refused connects
      · exact safe
      · push Not at refused
        split
        · exact safe
        · exact safe.commitEntry known (index_write system.branch _) rfl
            ⟨by simp, fun _ => staged.counted⟩ (.inr (unrecorded_of_lacksData refused.2))
      · push Not at refused
        exact safe.commitEntry known (index_write system.branch _) rfl (counted_staged)
          (.inr (unrecorded_of_lacksData refused.2))

/-- Appending to the files only adds to what there is. -/
theorem appended {flatFiles : FlatFileManager}
    (appended : FlatFileManager.Appended system.flatFiles flatFiles) :
    PruneSafe { system with flatFiles } := by
  have grown : ∀ {file}, file ∈ system.flatFiles.files → file ∈ flatFiles.files := fun known =>
    Finmap.mem_keys.mp (appended.files (Finmap.mem_keys.mpr known))
  have onward : Onward system { system with flatFiles } :=
    ⟨appended.upward, fun known => .inl ⟨_, known⟩, fun recorded => .inl recorded⟩
  refine { safe with
    named := fun recorded => grown (safe.named recorded)
    writers := fun known => grown (safe.writers known)
    pending := by
      rw [appended.pending]
      exact safe.pending
    pendingPos := by
      rw [appended.pending]
      exact safe.pendingPos
    written := ?_
    prunes := fun known => onward.progress (safe.prunes known) }
  intro record member
  obtain ⟨old, known, lower⟩ := safe.written record member
  obtain ⟨top, noted, higher⟩ := appended.highest known
  exact ⟨top, noted, lower.trans higher⟩

/-- A new writer holds the record it appended pending. -/
theorem addWriter (new : writer ∉ system.writers)
    (here : staged.entry.fileNumber = system.flatFiles.currentFile)
    (onDisk : system.flatFiles.currentFile ∈ system.flatFiles.files)
    (highest : ∃ top, system.flatFiles.highestHeight.lookup staged.entry.fileNumber = some top ∧
      height ≤ top) :
    PruneSafe
      { system with
        flatFiles := system.flatFiles.addPending staged.entry.fileNumber
        writers := system.writers.insert writer staged
        written := (staged.entry.fileNumber, height) :: system.written } := by
  have later : ∀ {other found}, (system.writers.insert writer staged).lookup other = some found →
      found = staged ∨ system.writers.lookup other = some found := by
    intro other found known
    rw [KeyedMap.lookup_insert] at known
    split_ifs at known
    · exact .inl (some.inj known).symm
    · exact .inr known
  refine { safe with writers := ?_, pending := ?_, pendingPos := ?_, written := ?_, prunes := ?_ }
  · intro other found known
    obtain rfl | known := later known
    · exact here ▸ onDisk
    · exact safe.writers known
  · intro file
    have sum := total_insert (writesTo file) system.writers writer staged
    rw [weightAt_of_notMem new, ← safe.pending file, writesTo] at sum
    simp only [FlatFileManager.addPending, KeyedMap.lookup_insert]
    by_cases same : staged.entry.fileNumber = file
    · subst same
      simp only [if_true, getD_some] at sum ⊢
      omega
    · simp only [same, if_false] at sum ⊢
      omega
  · intro file
    simp only [FlatFileManager.addPending, KeyedMap.lookup_insert]
    split_ifs
    · simp
    · exact safe.pendingPos file
  · intro record member
    obtain rfl | member := mem_cons.mp member
    · exact highest
    · exact safe.written record member
  · intro prune progress known
    refine Onward.progress ?_ (safe.prunes known)
    refine ⟨le_rfl, fun known => ?_, fun recorded => .inl recorded⟩
    obtain rfl | known := later known
    · exact .inr here
    · exact .inl ⟨_, known⟩

theorem writeRecord (new : writer ∉ system.writers) {staged : FlatFilePos → StagedBlock}
    (named : ∀ pos, (staged pos).entry.fileNumber = pos.fileNumber) (blockLength height : Nat)
    (outcome : FlatFileManager.WriteOutcome) :
    PruneSafe (system.writeRecord writer staged blockLength height outcome) := by
  obtain ⟨appended, position⟩ := FlatFileManager.writeBlock_appended system.flatFiles blockLength
  have grown := safe.appended appended
  rw [PruneSystem.writeRecord, FlatFileManager.writeBlockPending]
  generalize system.flatFiles.writeBlock blockLength height outcome = result at *
  obtain ⟨flatFiles, pos⟩ := result
  cases pos with
  | none => exact grown
  | some pos =>
    obtain ⟨here, onDisk, noted⟩ := position pos rfl
    have added := grown.addWriter new ((named pos).trans here) (here ▸ onDisk)
      ((named pos).symm ▸ noted)
    rw [named] at added
    exact added

theorem write (writer : Nat) (kind : WriterKind) (hash : BlockHash)
    (block : Block) (blockLength : Nat) (outcome : FlatFileManager.WriteOutcome) :
    PruneSafe (system.write writer kind hash block blockLength outcome) := by
  rw [PruneSystem.write]
  split
  · exact safe
  · split_ifs with allowed
    · exact safe.writeRecord allowed.2 (fun _ => rfl) ..
    · exact safe

theorem release (writer : Nat) : PruneSafe (system.release writer) := by
  rw [PruneSystem.release]
  split
  · exact safe
  · rename_i staged known
    obtain ⟨pending, equal, counts⟩ :=
      FlatFileManager.dropPending_eq system.flatFiles staged.entry.fileNumber
    have earlier : ∀ {other found}, (system.writers.erase writer).lookup other = some found →
        system.writers.lookup other = some found := by
      intro other found known
      rw [KeyedMap.lookup_erase] at known
      split_ifs at known
      exact known
    have onward : Onward system
        { system with
          flatFiles := { system.flatFiles with pending }
          writers := system.writers.erase writer } :=
      ⟨le_rfl, fun known => .inl ⟨_, earlier known⟩, fun recorded => .inl recorded⟩
    rw [equal]
    refine { safe with
      writers := fun known => safe.writers (earlier known)
      pending := ?_
      pendingPos := fun file => (counts file).2 (safe.pendingPos file)
      prunes := fun known => onward.progress (safe.prunes known) }
    intro file
    have sum := total_erase (writesTo file) system.writers writer
    rw [weightAt_of_lookup known, ← safe.pending file, writesTo] at sum
    rw [(counts file).1]
    change _ = total (writesTo file) (system.writers.erase writer)
    omega

end

/-! ### Deletion -/

/-- How far the deletion has got: a file is as it was, or it was one of the plan that the plan
does not keep, and is gone, with the entries of its blocks to be rewritten. -/
structure Deleting (plan : PrunePlan) (index : IndexLookup) (before : FlatFileManager)
    (deletion : Deletion) : Prop where
  currentFile : deletion.flatFiles.currentFile = before.currentFile
  pending : deletion.flatFiles.pending = before.pending
  file : ∀ file,
    ((file ∈ deletion.flatFiles.files ↔ file ∈ before.files) ∧
      deletion.flatFiles.highestHeight.lookup file = before.highestHeight.lookup file) ∨
    (file ∉ deletion.flatFiles.files ∧ ∃ highest blocks,
      plan.files.lookup file = some (highest, blocks) ∧ ¬ plan.keepsFile before file highest ∧
      ∀ hash ∈ blocks, ∀ entry, prunedEntry index file hash = some entry →
        (hash, entry) ∈ deletion.puts)
  puts : ∀ {hash entry}, (hash, entry) ∈ deletion.puts → ∃ file highest blocks,
    plan.files.lookup file = some (highest, blocks) ∧ ¬ plan.keepsFile before file highest ∧
    hash ∈ blocks ∧ prunedEntry index file hash = some entry

theorem deleteFile_deleting {before : FlatFileManager}
    (deleting : Deleting plan index before deletion) {file : Nat} :
    Deleting plan index before (plan.deleteFile index deletion file) := by
  rw [PrunePlan.deleteFile]
  cases known : plan.files.lookup file with
  | none => exact deleting
  | some listed =>
    obtain ⟨highest, blocks⟩ := listed
    dsimp only
    split_ifs with keeps onDisk
    · exact deleting
    · rw [FlatFileManager.deleteFile]
      split_ifs
      · exact deleting
      · have isThere : file ∈ deletion.flatFiles.files := by
          simpa [FlatFileManager.fileExists] using onDisk
        -- The file is as it was before the deletion, so what keeps it now kept it then.
        obtain ⟨-, sameHighest⟩ : (file ∈ deletion.flatFiles.files ↔ file ∈ before.files) ∧
            deletion.flatFiles.highestHeight.lookup file = before.highestHeight.lookup file :=
          (deleting.file file).resolve_right fun gone => gone.1 isThere
        have notKept : ¬ plan.keepsFile before file highest := by
          simpa only [PrunePlan.keepsFile, FlatFileManager.highestHeightWritten, sameHighest,
            deleting.currentFile] using keeps
        refine { deleting with file := fun other => ?_, puts := fun member => ?_ }
        · by_cases same : other = file
          · subst same
            refine .inr ⟨Finmap.notMem_erase_self, highest, blocks, known, notKept, ?_⟩
            intro hash member entry pruned
            exact mem_append_right _ (mem_rowsOf.mpr ⟨member, pruned⟩)
          · have different : ¬ file = other := Ne.symm same
            refine (deleting.file other).imp ?_ ?_
            · rintro ⟨files, highest⟩
              refine ⟨?_, ?_⟩
              · rw [← files]
                simp [Finmap.mem_erase, same]
              · rw [KeyedMap.lookup_erase, if_neg different]
                exact highest
            · rintro ⟨gone, highest, blocks, known, notKept, rewritten⟩
              refine ⟨fun there => gone (Finmap.mem_erase.mp there).2, highest, blocks, known,
                notKept, ?_⟩
              exact fun hash member entry pruned =>
                mem_append_left _ (rewritten hash member entry pruned)
        · obtain old | new := mem_append.mp member
          · exact deleting.puts old
          · obtain ⟨isListed, pruned⟩ := mem_rowsOf.mp new
            exact ⟨file, highest, blocks, known, notKept, isListed, pruned⟩
    · exact deleting

theorem foldl_deleting {plan : PrunePlan} {index : IndexLookup} {before : FlatFileManager}
    {order : List Nat} (deleting : Deleting plan index before deletion) :
    Deleting plan index before (order.foldl (plan.deleteFile index) deletion) := by
  induction order generalizing deletion with
  | nil => exact deleting
  | cons file rest ih =>
    exact ih (deleteFile_deleting deleting)

/-- The deletion a prune carries out. -/
theorem deleteFiles_deleting (system : PruneSystem) (plan : PrunePlan) (order : List Nat) :
    Deleting plan system.index system.flatFiles
      (order.foldl (plan.deleteFile system.index) { flatFiles := system.flatFiles }) :=
  foldl_deleting ⟨rfl, rfl, fun _ => .inl ⟨.rfl, rfl⟩, fun member => nomatch member⟩

/-- An entry is rewritten because it held a record in the deleted file, and holds none then. -/
theorem prunedEntry_eq (pruned : prunedEntry index file hash = some entry) :
    (∃ old, index hash = some old ∧ RecordedAt old file old.height ∧ entry.height = old.height) ∧
      ¬ holdsRecord entry ∧ CountedEntry entry := by
  obtain ⟨old, known, chosen⟩ := bind_eq_some_iff.mp pruned
  have names : old.fileNumber = file := by
    by_contra other
    rw [if_pos other] at chosen
    cases chosen
  rw [if_neg (not_not_intro names)] at chosen
  cases status : old.status with
  | headerOnly => simp [status] at chosen
  | pruned => simp [status] at chosen
  | dataStored =>
    simp only [status, some.injEq] at chosen
    subst chosen
    exact ⟨⟨old, known, ⟨.inl status, names, rfl⟩, rfl⟩, by simp [holdsRecord],
      by simp, by simp [BlockStatus.hasData]⟩
  | valid =>
    simp only [status, some.injEq] at chosen
    subst chosen
    exact ⟨⟨old, known, ⟨.inr (.inl status), names, rfl⟩, rfl⟩, by simp [holdsRecord],
      by simp, by simp [BlockStatus.hasData]⟩
  | invalid =>
    simp only [status] at chosen
    split_ifs at chosen with positive
    cases chosen
    exact ⟨⟨old, known, ⟨.inr (.inr ⟨status, positive⟩), names, rfl⟩, rfl⟩,
      by simp [holdsRecord], by simp, by simp [BlockStatus.hasData]⟩

/-- An entry that holds a record in the file is rewritten. -/
theorem prunedEntry_isSome (recorded : Recorded index hash file height) :
    (prunedEntry index file hash).isSome := by
  obtain ⟨old, known, holds, names, -⟩ := recorded
  obtain stored | valid | ⟨invalid, positive⟩ := holds
  · simp [prunedEntry, known, names, stored]
  · simp [prunedEntry, known, names, valid]
  · simp [prunedEntry, known, names, invalid, positive]

/-- A file that the deletion took was listed with all its blocks, and none of what keeps a file
kept it. -/
theorem Deleting.gone (deleting : Deleting plan system.index system.flatFiles deletion)
    (before : file ∈ system.flatFiles.files) (after : file ∉ deletion.flatFiles.files) :
    ∃ highest blocks, plan.files.lookup file = some (highest, blocks) ∧
      ¬ plan.keepsFile system.flatFiles file highest ∧
      ∀ hash ∈ blocks, ∀ entry, prunedEntry system.index file hash = some entry →
        (hash, entry) ∈ deletion.puts := by
  obtain ⟨same, -⟩ | ⟨-, gone⟩ := deleting.file file
  · exact absurd (same.mpr before) after
  · exact gone

/-- A file the plan does not keep is not shielded. -/
theorem exposed_of_not_keeps {highest : Nat}
    (notKept : ¬ plan.keepsFile system.flatFiles file highest) :
    ¬ Shielded plan.appendFile plan.pendingFiles system file := by
  rintro (pending | appended)
  · exact notKept (.inr (.inr (.inl pending)))
  · exact notKept (.inr (.inl appended))

/-- The blocks of a deleted file are all rewritten, so no entry is left over it. -/
theorem recorded_after (covering : Covering plan system) (scanned : plan.rows ⊆ plan.visited)
    (safe : PruneSafe system) (deleting : Deleting plan system.index system.flatFiles deletion)
    (recorded : Recorded (system.branch.write { blockIndexPuts := deletion.puts }).index hash
      file height) :
    Recorded system.index hash file height ∧ file ∈ deletion.flatFiles.files := by
  obtain ⟨entry, found, here⟩ := recorded
  rw [index_write, or_eq_some_iff] at found
  obtain put | ⟨put, found⟩ := found
  · obtain ⟨_, _, _, -, -, -, pruned⟩ := deleting.puts (mem_of_lastPut put)
    exact absurd here.holds (prunedEntry_eq pruned).2.1
  · have before : Recorded system.index hash file height := ⟨entry, found, here⟩
    refine ⟨before, ?_⟩
    by_contra gone
    obtain ⟨highest, blocks, known, notKept, rewritten⟩ := deleting.gone (safe.named before) gone
    have exposed := exposed_of_not_keeps notKept
    have visited := scanned (covering.rows before exposed)
    obtain ⟨_, _, known', listed, -⟩ := covering.listed before exposed visited
    rw [known, some.injEq, Prod.mk.injEq] at known'
    obtain ⟨rfl, rfl⟩ := known'
    obtain ⟨pruned, isPruned⟩ := isSome_iff_exists.mp (prunedEntry_isSome before)
    have member := rewritten hash listed pruned isPruned
    exact lastPut_eq_none.mp put (mem_map_of_mem member)

section

variable (safe : PruneSafe system)
include safe

/-- A rewritten entry has no record to count. -/
theorem counted_after (deleting : Deleting plan system.index system.flatFiles deletion) :
    Counted (system.branch.write { blockIndexPuts := deletion.puts }).index := by
  intro hash entry found
  rw [index_write, or_eq_some_iff] at found
  obtain put | ⟨-, found⟩ := found
  · obtain ⟨_, _, _, -, -, -, pruned⟩ := deleting.puts (mem_of_lastPut put)
    exact (prunedEntry_eq pruned).2.2
  · exact safe.counted hash entry found

/-- The file of a record that is not committed is not deleted. -/
theorem writer_after (covering : Covering plan system)
    (deleting : Deleting plan system.index system.flatFiles deletion)
    (known : system.writers.lookup writer = some staged) :
    staged.entry.fileNumber ∈ deletion.flatFiles.files := by
  by_contra gone
  obtain ⟨highest, blocks, -, notKept, -⟩ := deleting.gone (safe.writers known) gone
  exact exposed_of_not_keeps notKept (covering.writers known)

theorem deleteFiles (covering : Covering plan system)
    (scanned : plan.rows ⊆ plan.visited) (free : system.acceptLocked = false) (order : List Nat) :
    PruneSafe (system.deleteFiles plan order) := by
  have deleting := deleteFiles_deleting system plan order
  have onward : Onward system (system.deleteFiles plan order) := by
    refine ⟨deleting.currentFile.ge, fun known => .inl ⟨_, known⟩, fun recorded => .inl ?_⟩
    exact (recorded_after covering scanned safe deleting recorded).1
  have same : (system.deleteFiles plan order).flatFiles.pending = system.flatFiles.pending :=
    deleting.pending
  refine ⟨safe.counted_after deleting, ?_, safe.unlocked, ?_, ?_, ?_, ?_, ?_, ?_⟩
  · intro before known
    cases (safe.unlocked free).symm.trans known
  · exact fun recorded => (recorded_after covering scanned safe deleting recorded).2
  · exact fun known => safe.writer_after covering deleting known
  · rw [same]
    exact safe.pending
  · rw [same]
    exact safe.pendingPos
  · intro record member
    obtain ⟨member, onDisk⟩ := mem_filter.mp member
    obtain ⟨-, highest⟩ | ⟨gone, -⟩ := deleting.file record.1
    · obtain ⟨top, known, lower⟩ := safe.written record member
      exact ⟨top, highest.trans known, lower⟩
    · exact absurd (by simpa using onDisk) gone
  · exact fun known => onward.progress (safe.prunes known)

/-- A prune that is over is in progress no more. -/
theorem finish (prune : Nat) : PruneSafe { system with prunes := system.prunes.erase prune } := by
  refine { safe with prunes := ?_ }
  intro other progress known
  simp only [KeyedMap.lookup_erase] at known
  split_ifs at known
  exact (safe.prunes known).of_same rfl rfl rfl

/-- The plan of a prune still covers once the prune itself is over. -/
theorem finish_covering {prune : Nat} (known : system.prunes.lookup prune = some (.scanning plan)) :
    Covering plan { system with prunes := system.prunes.erase prune } := by
  have covering : ProgressSafe system (.scanning plan) := safe.prunes known
  exact covering.of_same rfl rfl rfl

theorem execute (prune : Nat) (order : List Nat) : PruneSafe (system.execute prune order) := by
  rw [PruneSystem.execute]
  split
  · rename_i plan known
    split_ifs with ready inPlace
    · exact (safe.finish prune).deleteFiles (safe.finish_covering known) ready.1
        (by simpa using ready.2) order
    · exact safe.finish prune
    · exact safe
  · exact safe

/-! ### Steps -/

theorem lock : PruneSafe { system with acceptLocked := true } := by
  exact { safe with
    unlocked := fun free => nomatch free
    prunes := fun known => (safe.prunes known).of_same rfl rfl rfl }

theorem unlock : PruneSafe { system with acceptLocked := false, checkpoint := none } := by
  exact { safe with
    checkpoint := fun known => nomatch known
    unlocked := fun _ => rfl
    prunes := fun known => (safe.prunes known).of_same rfl rfl rfl }

theorem setCheckpoint (locked : system.acceptLocked) :
    PruneSafe { system with checkpoint := some system.branch } := by
  refine { safe with checkpoint := ?_, unlocked := ?_, prunes := ?_ }
  · intro before known
    cases known
    exact ⟨safe.counted, id⟩
  · intro free
    cases (locked : system.acceptLocked = true).symm.trans free
  · exact fun known => (safe.prunes known).of_same rfl rfl rfl

/-- Every step keeps the invariant. -/
theorem step (call : PruneStep) : PruneSafe (system.step call) := by
  cases call with
  | readTip prune pruneBelow => exact safe.readTip prune pruneBelow
  | readFiles prune => exact safe.readFiles prune
  | beginScan prune => exact safe.beginScan prune
  | visitRow prune hash => exact safe.visitRow prune hash
  | execute prune order => exact safe.execute prune order
  | write writer kind hash block blockLength outcome =>
    exact safe.write writer kind hash block blockLength outcome
  | commit writer canonical connects => exact safe.commit writer canonical connects
  | release writer => exact safe.release writer
  | lock => exact safe.lock
  | unlock => exact safe.unlock
  | checkpoint =>
    rw [PruneSystem.step]
    split_ifs with locked
    · exact safe.setCheckpoint locked
    · exact safe
  | abort => exact safe.abort
  | mark scan root => exact safe.underLock (mark_carried safe.counted)
  | clear scan root => exact safe.underLock (clear_carried safe.counted)
  | header hash header => exact safe.underLock (addHeader_carried safe.counted)
  | disconnect => exact safe.underLock (disconnectTip_carried safe.counted)
  | connect hash => exact safe.underLock (connectTip_carried safe.counted)

end

end PruneSafe

/-! ## What a prune deletes -/

/-- What one prune with a cut deletes and marks: none of the files that go holds a block above the
cut by the index or by what was written since the files were opened, or a record that its writer
still holds pending, and no block above the cut is newly marked as pruned. -/
structure Spares (pruneBelow : Nat) (before after : PruneSystem) : Prop where
  indexed : ∀ hash entry, before.index hash = some entry → holdsRecord entry →
    entry.fileNumber ∉ after.flatFiles.files → entry.height ≤ pruneBelow
  written : ∀ record ∈ before.written, record.1 ∈ before.flatFiles.files →
    record.1 ∉ after.flatFiles.files → record.2 ≤ pruneBelow
  pending : ∀ writer staged, before.writers.lookup writer = some staged →
    staged.entry.fileNumber ∈ after.flatFiles.files
  marked : ∀ hash entry, after.index hash = some entry → entry.status = .pruned →
    before.index hash = some entry ∨ entry.height ≤ pruneBelow

/-- No entry that says the block files hold its block names a file that does not exist. -/
def NoneOrphaned (system : PruneSystem) : Prop :=
  ∀ hash entry, system.index hash = some entry → holdsRecord entry →
    entry.fileNumber ∈ system.flatFiles.files

section

variable (safe : PruneSafe system)
include safe

theorem PruneSafe.noneOrphaned : NoneOrphaned system :=
  fun _ _ known holds => safe.named ⟨_, known, holds, rfl, rfl⟩

/-- A step that changes neither the files nor the entries spares everything. -/
theorem Spares.of_same {after : PruneSystem} (pruneBelow : Nat)
    (files : after.flatFiles.files = system.flatFiles.files) (index : after.index = system.index) :
    Spares pruneBelow system after where
  indexed := by
    intro hash entry known holds gone
    rw [files] at gone
    exact absurd (safe.noneOrphaned hash entry known holds) gone
  written := by
    intro record _ before gone
    rw [files] at gone
    exact absurd before gone
  pending := by
    intro writer staged known
    rw [files]
    exact safe.writers known
  marked := by
    intro hash entry known _
    rw [index] at known
    exact .inl known

/-- The deletion takes no file with a block above the cut and marks no such block. -/
theorem PruneSafe.deleteFiles_spares (covering : Covering plan system)
    (scanned : plan.rows ⊆ plan.visited) (order : List Nat) :
    Spares plan.pruneBelow system (system.deleteFiles plan order) := by
  have deleting := deleteFiles_deleting system plan order
  -- The highest block of a file that the plan does not keep is at or below the cut.
  have listedBelow : ∀ {hash file height highest}, Recorded system.index hash file height →
      (∃ blocks, plan.files.lookup file = some (highest, blocks)) →
      ¬ plan.keepsFile system.flatFiles file highest → height ≤ plan.pruneBelow := by
    rintro hash file height highest recorded ⟨blocks, known⟩ notKept
    have exposed := exposed_of_not_keeps notKept
    have visited := scanned (covering.rows recorded exposed)
    obtain ⟨top, _, found, -, lower⟩ := covering.listed recorded exposed visited
    rw [known, some.injEq, Prod.mk.injEq] at found
    have notAbove : ¬ plan.pruneBelow < highest := fun above => notKept (.inl above)
    omega
  refine ⟨?_, ?_, ?_, ?_⟩
  · intro hash entry known holds gone
    have recorded : Recorded system.index hash entry.fileNumber entry.height :=
      ⟨entry, known, holds, rfl, rfl⟩
    obtain ⟨highest, blocks, found, notKept, -⟩ := deleting.gone (safe.named recorded) gone
    exact listedBelow recorded ⟨blocks, found⟩ notKept
  · intro record member before gone
    obtain ⟨highest, blocks, -, notKept, -⟩ := deleting.gone before gone
    obtain ⟨top, known, lower⟩ := safe.written record member
    by_contra above
    refine notKept (.inr (.inr (.inr ?_)))
    simp only [FlatFileManager.highestHeightWritten, known, any_some, decide_eq_true_eq]
    omega
  · exact fun writer staged known => safe.writer_after covering deleting known
  · intro hash entry found _
    have found : (system.branch.write { blockIndexPuts := _ }).index hash = some entry := found
    rw [index_write, or_eq_some_iff] at found
    obtain put | ⟨-, found⟩ := found
    · obtain ⟨file, highest, blocks, known, notKept, -, pruned⟩ :=
        deleting.puts (mem_of_lastPut put)
      obtain ⟨⟨old, isOld, recorded, height⟩, -, -⟩ := prunedEntry_eq pruned
      rw [height]
      exact .inr (listedBelow ⟨old, isOld, recorded⟩ ⟨blocks, known⟩ notKept)
    · exact .inl found

/-- What a prune with the cut carries out spares what is above it. -/
theorem PruneSafe.execute_spares {prune : Nat}
    (known : system.prunes.lookup prune = some (.scanning plan)) {order : List Nat} :
    Spares plan.pruneBelow system (system.execute prune order) := by
  rw [PruneSystem.execute, known]
  dsimp only
  split_ifs with ready inPlace
  · have spares := (safe.finish prune).deleteFiles_spares (safe.finish_covering known) ready.1 order
    exact { spares with }
  · exact .of_same safe _ rfl rfl
  · exact .of_same safe _ rfl rfl

end

/-- The step, if it carries out a prune, spares what is above the cut of that prune. -/
def PrunesSparingly (system : PruneSystem) (call : PruneStep) : Prop :=
  ∀ prune order plan, call = .execute prune order →
    system.prunes.lookup prune = some (.scanning plan) →
    Spares plan.pruneBelow system (system.step call)

/-- A data directory as it is opened: nothing is under way, the blocks of the index are counted,
and their files are there. -/
structure Opened (system : PruneSystem) : Prop where
  counted : Counted system.index
  noneOrphaned : NoneOrphaned system
  unlocked : system.checkpoint = none
  prunes : system.prunes = ∅
  writers : system.writers = ∅
  pending : system.flatFiles.pending = ∅
  written : system.written = []

theorem Opened.safe (opened : Opened system) : PruneSafe system where
  counted := opened.counted
  checkpoint := fun known => by simp [opened.unlocked] at known
  unlocked := fun _ => opened.unlocked
  named := by
    rintro hash file height ⟨entry, known, holds, rfl, -⟩
    exact opened.noneOrphaned hash entry known holds
  writers := fun known => by simp [opened.writers] at known
  pending := fun file => by simp [opened.pending, opened.writers]
  pendingPos := fun file => by simp [opened.pending]
  written := fun record member => by simp [opened.written] at member
  prunes := fun known => by simp [opened.prunes] at known

/-- Whatever the threads do after a data directory is opened, no entry is ever left over a deleted
file, and every prune spares what is above its cut and what is not committed yet. -/
theorem prunes_leave_no_orphan {system : PruneSystem} (opened : Opened system)
    (steps : List PruneStep) :
    Run.Throughout PruneSystem.step NoneOrphaned system steps ∧
      Run.EachStep PruneSystem.step PrunesSparingly system steps := by
  have keep : ∀ system, PruneSafe system → ∀ call ∈ steps, PruneSafe (system.step call) :=
    fun _ safe call _ => safe.step call
  constructor
  · exact (Run.throughout_of_kept keep opened.safe).imp fun _ safe => safe.noneOrphaned
  · refine Run.eachStep_of_kept keep ?_ opened.safe
    rintro system safe _ - prune order plan rfl known
    exact safe.execute_spares known

/-- The first block is in a file of its own, which the next record does not fit in. -/
def firstFile : PruneSystem where
  branch :=
    { store :=
        { blockIndex := putAll ∅ [forkEntry 0 1 0 .valid 2]
          heightIndex := putAll ∅ [(0, Hash256.repeated 1)] }
      bestHeader := (Hash256.repeated 1, 2)
      headersTipHeight := 0
      tipHeight := 0
      tip := Hash256.repeated 1 }
  flatFiles :=
    { files := putAll ∅ [(0, 10)], currentFile := 0, currentPos := 10, maxFileSize := 16 }

/-- A second block is stored and connected, and the first one pruned. -/
def pruneFirst : List PruneStep :=
  [.write 0 .store (Hash256.repeated 2) ⟨forkHeader 1 2, [⟨1, 0, [], []⟩]⟩ 10 .written,
    .commit 0 false false, .release 0, .lock, .connect (Hash256.repeated 2), .unlock,
    .readTip 0 0, .readFiles 0, .beginScan 0, .visitRow 0 (Hash256.repeated 1),
    .visitRow 0 (Hash256.repeated 2), .execute 0 [0, 1]]

theorem firstFile_index {hash : BlockHash} {entry : BlockIndexEntry}
    (known : firstFile.index hash = some entry) : (forkEntry 0 1 0 .valid 2).2 = entry := by
  simp only [PruneSystem.index, BranchState.index, firstFile, InMemoryStore.getBlockIndex, putAll,
    List.foldl_cons, List.foldl_nil, lookup_insert] at known
  split_ifs at known
  · exact some.inj known
  · simp at known

theorem firstFile_opened : Opened firstFile where
  counted _ _ known := by
    rw [← firstFile_index known]
    exact ⟨by decide, by decide⟩
  noneOrphaned := by
    intro hash entry known _
    rw [← firstFile_index known]
    decide +kernel
  unlocked := rfl
  prunes := rfl
  writers := rfl
  pending := rfl
  written := rfl

theorem prunes_leave_no_orphan_of_first :
    Run.Throughout PruneSystem.step NoneOrphaned firstFile pruneFirst ∧
      Run.EachStep PruneSystem.step PrunesSparingly firstFile pruneFirst ∧
      0 ∉ (pruneFirst.foldl PruneSystem.step firstFile).flatFiles.files := by
  obtain ⟨throughout, sparingly⟩ := prunes_leave_no_orphan firstFile_opened pruneFirst
  exact ⟨throughout, sparingly, by decide +kernel⟩

end Satd.Chain
