import Satd.Lib.KeyedMap

/-!
# The block files

Blocks are appended to numbered files. A record that does not fit in the file being appended
to goes to the next one. The files remember, while the process runs, the highest height that
was written to each of them, and how many of their records are pending: written, but not yet
named by a committed entry of the block index.
-/

namespace Satd.Storage

open KeyedMap Finset

/-- Where a record starts. -/
structure FlatFilePos where
  fileNumber : Nat
  dataPos : Nat
  deriving DecidableEq, Repr

def maxFileSize : Nat := 128 * 1024 * 1024

structure FlatFileManager where
  /-- The files that exist, with their lengths. -/
  files : Map Nat Nat
  currentFile : Nat
  currentPos : Nat
  maxFileSize : Nat := Storage.maxFileSize
  highestHeight : Map Nat Nat := ∅
  pending : Map Nat Nat := ∅

namespace FlatFileManager

variable (manager : FlatFileManager) (recordSize : Nat)

/-- The record does not fit in the file being appended to. -/
def isFull : Prop := 0 < manager.currentPos ∧ manager.maxFileSize < manager.currentPos + recordSize

instance (recordSize : Nat) : Decidable (manager.isFull recordSize) :=
  inferInstanceAs (Decidable (_ ∧ _))

/-- Go on with the next file, at its end if it exists. -/
def nextFile : FlatFileManager :=
  { manager with
    currentFile := manager.currentFile + 1
    currentPos := (manager.files.lookup (manager.currentFile + 1)).getD 0 }

/-- Go on to the first file the record fits in. -/
def rollOver (recordSize : Nat) : Nat → FlatFileManager → FlatFileManager
  | 0, manager => manager
  | fuel + 1, manager =>
    if manager.isFull recordSize then rollOver recordSize fuel manager.nextFile else manager

/-- The files above the one being appended to. -/
def above : Finset Nat := manager.files.keys.filter fun file => manager.currentFile < file

theorem card_above_nextFile (known : manager.currentFile + 1 ∈ manager.files) :
    manager.nextFile.above.card < manager.above.card := by
  refine Finset.card_lt_card (Finset.ssubset_iff_subset_ne.mpr ⟨?_, ?_⟩)
  · intro file member
    obtain ⟨onDisk, higher⟩ := Finset.mem_filter.mp member
    have higher : manager.currentFile + 1 < file := higher
    exact mem_filter.mpr ⟨onDisk, by omega⟩
  · intro same
    have next : manager.currentFile + 1 ∈ manager.above :=
      mem_filter.mpr ⟨Finmap.mem_keys.mpr known, by omega⟩
    rw [← same] at next
    have higher : manager.currentFile + 1 < manager.currentFile + 1 := (Finset.mem_filter.mp next).2
    omega

/-- Enough steps end at a file the record fits in. -/
theorem rollOver_settles {recordSize : Nat} {fuel : Nat} {manager : FlatFileManager}
    (enough : manager.above.card + 1 < fuel) :
      ¬ (rollOver recordSize fuel manager).isFull recordSize := by
  induction fuel generalizing manager with
  | zero => omega
  | succ fuel ih =>
    rw [rollOver]
    split_ifs with full
    · by_cases known : manager.currentFile + 1 ∈ manager.files
      · have fewer := card_above_nextFile manager known
        exact ih (by omega)
      · -- A file that does not exist has room for any record.
        have fresh : ¬ manager.nextFile.isFull recordSize := by
          simp [isFull, nextFile, Finmap.lookup_eq_none.mpr known]
        cases fuel with
        | zero => exact fresh
        | succ fuel =>
          rw [rollOver, if_neg fresh]
          exact fresh
    · exact full

/-- The record fits where it goes. -/
theorem rollOver_fits :
    ¬ (rollOver recordSize (manager.files.keys.card + 2) manager).isFull recordSize := by
  have fewer : manager.above.card ≤ manager.files.keys.card := card_filter_le ..
  exact rollOver_settles (by omega)

/-- Rolling over only moves the place records are appended at, upwards. -/
theorem rollOver_eq (fuel : Nat) (manager : FlatFileManager) :
    ∃ currentFile currentPos, manager.currentFile ≤ currentFile ∧
      rollOver recordSize fuel manager = { manager with currentFile, currentPos } := by
  induction fuel generalizing manager with
  | zero => exact ⟨manager.currentFile, manager.currentPos, le_rfl, rfl⟩
  | succ fuel ih =>
    rw [rollOver]
    split_ifs
    · obtain ⟨file, pos, higher, equal⟩ := ih manager.nextFile
      exact ⟨file, pos, (Nat.le_succ _).trans higher, equal⟩
    · exact ⟨manager.currentFile, manager.currentPos, le_rfl, rfl⟩

/-- Records go to the end of the file being appended to. -/
def AtEnd (manager : FlatFileManager) : Prop :=
  (manager.files.lookup manager.currentFile).getD 0 = manager.currentPos

theorem AtEnd.rollOver {manager : FlatFileManager} (atEnd : manager.AtEnd) (recordSize fuel : Nat) :
    (rollOver recordSize fuel manager).AtEnd := by
  induction fuel generalizing manager with
  | zero => exact atEnd
  | succ fuel ih =>
    rw [FlatFileManager.rollOver]
    split_ifs
    · exact ih rfl
    · exact atEnd

variable (blockLength : Nat)

/-- How a write ends. On the way to a file with room, after a number of files, one may fail to be
synced or the length of the next one to be read. The file may fail to be opened or written to,
and the bytes that were left to be cut off. -/
inductive WriteOutcome where
  | written
  | unsynced (turns : Nat)
  | unread (turns : Nat)
  | unopened
  | cut
  | torn (left : Nat)

/-- The append position is the end of its file afterwards, if it was before. -/
def WriteOutcome.Clean : WriteOutcome → Prop
  | .unread _ | .torn _ => False
  | _ => True

/-- Append a record of a block at a height. The height is noted before the bytes are written, and
they go to the end of the file, wherever the position is. -/
def writeBlock (height : Nat) (outcome : WriteOutcome) : FlatFileManager × Option FlatFilePos :=
  let recordSize := 8 + blockLength
  let rolled := rollOver recordSize (manager.files.keys.card + 2) manager
  let file := rolled.currentFile
  let highest := max ((rolled.highestHeight.lookup file).getD height) height
  let noted := { rolled with highestHeight := rolled.highestHeight.insert file highest }
  let length := (rolled.files.lookup file).getD 0
  match outcome with
  | .written =>
    ({ noted with
        files := rolled.files.insert file (length + recordSize)
        currentPos := rolled.currentPos + recordSize },
      some ⟨file, rolled.currentPos⟩)
  | .unsynced turns => (rollOver recordSize turns manager, none)
  | .unread turns =>
    let rolled := rollOver recordSize turns manager
    ({ rolled with currentFile := rolled.currentFile + 1 }, none)
  | .unopened => (noted, none)
  | .cut => ({ noted with files := rolled.files.insert file rolled.currentPos }, none)
  | .torn left => ({ noted with files := rolled.files.insert file (length + left) }, none)

/-- The position of a record fits in the 32 bits it is stored in. -/
theorem writeBlock_fits (small : manager.maxFileSize ≤ 2 ^ 32) {height : Nat} {pos : FlatFilePos}
    (written : (manager.writeBlock blockLength height .written).2 = some pos) :
    pos.dataPos < 2 ^ 32 := by
  have fits := manager.rollOver_fits (8 + blockLength)
  obtain ⟨file, place, -, rolled⟩ :=
    rollOver_eq (8 + blockLength) (manager.files.keys.card + 2) manager
  rw [writeBlock, rolled] at written
  simp only [rolled, isFull] at fits
  cases written
  change place < 2 ^ 32
  omega

variable (file : Nat)

/-- One more record of the file is pending. -/
def addPending : FlatFileManager :=
  let count := (manager.pending.lookup file).getD 0 + 1
  { manager with pending := manager.pending.insert file count }

/-- Append a record that is pending until its entry is committed. -/
def writeBlockPending (height : Nat) (outcome : WriteOutcome) :
    FlatFileManager × Option FlatFilePos :=
  match manager.writeBlock blockLength height outcome with
  | (written, none) => (written, none)
  | (written, some pos) => (written.addPending pos.fileNumber, some pos)

/-- What appending a record does: the append moves up, perhaps, no file goes away, and no height
that was noted gets lower. -/
structure Appended (before after : FlatFileManager) : Prop where
  upward : before.currentFile ≤ after.currentFile
  files : before.files.keys ⊆ after.files.keys
  pending : after.pending = before.pending
  highest : ∀ {file old}, before.highestHeight.lookup file = some old →
    ∃ top, after.highestHeight.lookup file = some top ∧ old ≤ top

/-- A record that is written is in the file being appended to, and its height is noted. -/
theorem writeBlock_appended {height : Nat} {outcome : WriteOutcome} :
    Appended manager (manager.writeBlock blockLength height outcome).1 ∧
      ∀ pos, (manager.writeBlock blockLength height outcome).2 = some pos →
        pos.fileNumber = (manager.writeBlock blockLength height outcome).1.currentFile ∧
        pos.fileNumber ∈ (manager.writeBlock blockLength height outcome).1.files ∧
        ∃ top, (manager.writeBlock blockLength height outcome).1.highestHeight.lookup
          pos.fileNumber = some top ∧ height ≤ top := by
  obtain ⟨file, pos, upward, rolled⟩ :=
    rollOver_eq (8 + blockLength) (manager.files.keys.card + 2) manager
  have highest : ∀ {other old}, manager.highestHeight.lookup other = some old →
      ∃ top, (manager.highestHeight.insert file
        (max ((manager.highestHeight.lookup file).getD height) height)).lookup other = some top ∧
        old ≤ top := by
    intro other old known
    rw [KeyedMap.lookup_insert]
    split_ifs with same
    · subst same
      exact ⟨_, rfl, by simp [known]⟩
    · exact ⟨old, known, le_rfl⟩
  have grown : ∀ length, manager.files.keys ⊆ (manager.files.insert file length).keys :=
    fun length => KeyedMap.keys_insert manager.files file length ▸ Finset.subset_insert ..
  cases outcome with
  | unsynced turns | unread turns =>
    obtain ⟨_, _, upward, rolled⟩ := rollOver_eq (8 + blockLength) turns manager
    rw [writeBlock, rolled]
    exact ⟨⟨by simp only; omega, subset_rfl, rfl, fun known => ⟨_, known, le_rfl⟩⟩, by simp⟩
  | unopened =>
    rw [writeBlock, rolled]
    exact ⟨⟨upward, subset_rfl, rfl, highest⟩, by simp⟩
  | cut | torn =>
    rw [writeBlock, rolled]
    exact ⟨⟨upward, grown _, rfl, highest⟩, by simp⟩
  | written =>
    rw [writeBlock, rolled]
    refine ⟨⟨upward, grown _, rfl, highest⟩, ?_⟩
    rintro _ ⟨⟩
    exact ⟨rfl, Finmap.mem_insert.mpr (.inl rfl), _, Finmap.lookup_insert _, le_max_right _ _⟩

/-- The writer of a pending record lets go of it. -/
def dropPending : FlatFileManager :=
  match manager.pending.lookup file with
  | none => manager
  | some count =>
    if count - 1 = 0 then { manager with pending := manager.pending.erase file }
    else { manager with pending := manager.pending.insert file (count - 1) }

/-- Letting go of a record takes one off the count of its file, and no count is zero. -/
theorem dropPending_eq :
    ∃ pending, manager.dropPending file = { manager with pending } ∧
      ∀ other, (pending.lookup other).getD 0 =
          (manager.pending.lookup other).getD 0 - (if file = other then 1 else 0) ∧
        (manager.pending.lookup other ≠ some 0 → pending.lookup other ≠ some 0) := by
  rw [dropPending]
  cases known : manager.pending.lookup file with
  | none =>
    refine ⟨manager.pending, rfl, fun other => ⟨?_, id⟩⟩
    split_ifs with same
    · rw [← same, known]
      rfl
    · rfl
  | some count =>
    dsimp only
    split_ifs with last
    · refine ⟨_, rfl, fun other => ?_⟩
      rw [KeyedMap.lookup_erase]
      split_ifs with same
      · rw [← same, known]
        simp [last]
      · exact ⟨rfl, id⟩
    · refine ⟨_, rfl, fun other => ?_⟩
      rw [KeyedMap.lookup_insert]
      split_ifs with same
      · rw [← same, known]
        simp [last]
      · exact ⟨rfl, id⟩

def filesWithPendingRecords : Finset Nat := manager.pending.keys

def highestHeightWritten : Option Nat := manager.highestHeight.lookup file

def fileExists : Bool := file ∈ manager.files

/-- Delete a file, unless it is the one being appended to. -/
def deleteFile : Option FlatFileManager :=
  if file = manager.currentFile then none
  else some
    { manager with
      files := manager.files.erase file
      highestHeight := manager.highestHeight.erase file }

end FlatFileManager

/-! ## Runs -/

inductive FileCall where
  | write (blockLength height : Nat) (outcome : FlatFileManager.WriteOutcome)
  | delete (file : Nat)

def FileCall.Clean : FileCall → Prop
  | .write _ _ outcome => outcome.Clean
  | .delete _ => True

/-- The files, and the records that were written to those that are left, with their sizes. -/
structure Shelf where
  manager : FlatFileManager
  records : List (FlatFilePos × Nat)

namespace Shelf

/-- The files as they are opened. -/
def opened (files : Map Nat Nat) (currentFile maxFileSize : Nat) : Shelf :=
  ⟨{ files, currentFile, maxFileSize, currentPos := (files.lookup currentFile).getD 0 }, []⟩

def step (shelf : Shelf) : FileCall → Shelf
  | .write blockLength height outcome =>
    match shelf.manager.writeBlock blockLength height outcome with
    | (written, none) => { shelf with manager := written }
    | (written, some pos) => ⟨written, (pos, 8 + blockLength) :: shelf.records⟩
  | .delete file =>
    match shelf.manager.deleteFile file with
    | none => shelf
    | some left => ⟨left, shelf.records.filter fun record => record.1.fileNumber ≠ file⟩

/-- The first record ends before the second in their file, or they are in different files. -/
def Before (second first : FlatFilePos × Nat) : Prop :=
  first.1.fileNumber = second.1.fileNumber → first.1.dataPos + first.2 ≤ second.1.dataPos

/-- Every record is in its file, after those written there before, and ends within the limit unless
it is alone. -/
structure Sound (maxFileSize : Nat) (shelf : Shelf) : Prop where
  atEnd : shelf.manager.AtEnd
  limit : shelf.manager.maxFileSize = maxFileSize
  inside : ∀ record ∈ shelf.records, ∃ length,
    shelf.manager.files.lookup record.1.fileNumber = some length ∧
      record.1.dataPos + record.2 ≤ length
  apart : shelf.records.Pairwise Before
  capped : ∀ record ∈ shelf.records,
    record.1.dataPos = 0 ∨ record.1.dataPos + record.2 ≤ maxFileSize

theorem Sound.step {maxFileSize : Nat} {shelf : Shelf} (sound : shelf.Sound maxFileSize)
    {call : FileCall} (clean : call.Clean) : (shelf.step call).Sound maxFileSize := by
  obtain ⟨atEnd, limit, inside, apart, capped⟩ := sound
  cases call with
  | write blockLength height outcome =>
    have fits := shelf.manager.rollOver_fits (8 + blockLength)
    have ended := atEnd.rollOver (8 + blockLength) (shelf.manager.files.keys.card + 2)
    obtain ⟨file, pos, -, rolled⟩ := FlatFileManager.rollOver_eq (8 + blockLength)
      (shelf.manager.files.keys.card + 2) shelf.manager
    rw [rolled] at fits ended
    simp only [FlatFileManager.isFull, limit, not_and, not_lt] at fits
    simp only [FlatFileManager.AtEnd] at ended
    -- What was written to the file ends where the append goes on.
    have below : ∀ record ∈ shelf.records, record.1.fileNumber = file →
        record.1.dataPos + record.2 ≤ pos := by
      intro record member same
      obtain ⟨length, found, ends⟩ := inside record member
      rw [same] at found
      simpa [← ended, found] using ends
    have kept : ∀ longer, pos ≤ longer → ∀ record ∈ shelf.records, ∃ length,
        (shelf.manager.files.insert file longer).lookup record.1.fileNumber = some length ∧
          record.1.dataPos + record.2 ≤ length := by
      intro longer more record member
      rw [lookup_insert]
      split_ifs with same
      · exact ⟨longer, rfl, (below record member same.symm).trans more⟩
      · exact inside record member
    cases outcome with
    | unread | torn => cases clean
    | unsynced turns =>
      have ended := atEnd.rollOver (8 + blockLength) turns
      obtain ⟨_, _, -, rolled⟩ := FlatFileManager.rollOver_eq (8 + blockLength) turns shelf.manager
      rw [rolled] at ended
      rw [Shelf.step, FlatFileManager.writeBlock, rolled]
      exact ⟨ended, limit, inside, apart, capped⟩
    | unopened =>
      rw [Shelf.step, FlatFileManager.writeBlock, rolled]
      exact ⟨ended, limit, inside, apart, capped⟩
    | cut =>
      rw [Shelf.step, FlatFileManager.writeBlock, rolled]
      exact ⟨by simp [FlatFileManager.AtEnd], limit, kept pos le_rfl, apart, capped⟩
    | written =>
      rw [Shelf.step, FlatFileManager.writeBlock, rolled]
      simp only [ended]
      refine ⟨by simp [FlatFileManager.AtEnd], limit, ?_, ?_, ?_⟩
      · exact List.forall_mem_cons.mpr ⟨⟨_, by simp, le_rfl⟩, kept _ (Nat.le_add_right ..)⟩
      · exact List.pairwise_cons.mpr ⟨below, apart⟩
      · exact List.forall_mem_cons.mpr ⟨(Nat.eq_zero_or_pos pos).imp_right fits, capped⟩
  | delete file =>
    simp only [Shelf.step, FlatFileManager.deleteFile]
    split_ifs with current
    · exact ⟨atEnd, limit, inside, apart, capped⟩
    · refine ⟨?_, limit, ?_, apart.filter _, ?_⟩
      · simpa [FlatFileManager.AtEnd, lookup_erase, current] using atEnd
      · intro record member
        obtain ⟨member, other⟩ := List.mem_filter.mp member
        simpa [lookup_erase, Ne.symm (of_decide_eq_true other)] using inside record member
      · exact fun record member => capped record (List.mem_filter.mp member).1

/-- Records never overlap and files stay within the limit, whatever is written, fails to be
written or is deleted, until a length is not read or the bytes of a failed write are not cut off. -/
theorem records_apart (files : Map Nat Nat) (currentFile maxFileSize : Nat)
    {calls : List FileCall} (clean : ∀ call ∈ calls, call.Clean) :
    (calls.foldl step (opened files currentFile maxFileSize)).Sound maxFileSize := by
  have start : (opened files currentFile maxFileSize).Sound maxFileSize :=
    ⟨rfl, rfl, by simp [opened], .nil, by simp [opened]⟩
  exact List.foldlRecOn calls step start fun shelf sound call member =>
    sound.step (clean call member)

/-- A failed write is cut off, and the next record goes to a new file. -/
theorem records_apart_cut :
    ([.write 2 5 .written, .write 3 6 .cut, .write 20 6 .written].foldl step
      (opened ∅ 0 32)).Sound 32 :=
  records_apart ∅ 0 32 (by simp [FileCall.Clean, FlatFileManager.WriteOutcome.Clean])

/-- A record after a torn one is not where its position says. -/
example : let shelf := [.write 2 5 (.torn 4), .write 2 6 .written].foldl step (opened ∅ 0 32)
    shelf.records = [(⟨0, 0⟩, 10)] ∧ shelf.manager.files.lookup 0 = some 14 := by decide

end Shelf
end Satd.Storage
