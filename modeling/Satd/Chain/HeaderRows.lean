import Satd.Chain.Headers
import Satd.Lib.Run

/-!
# The height index above the tip

Above the active tip the height index is to name the ancestors of the best header, and
nothing else. `headerChainRows` keeps it so when the best header changes: it enters the new
ancestors exactly where they differ from the old ones, and drops the old rows above the new
best header (`mem_headerChainRows`).

A restored row is a different matter. It is entered for a stored block whose height has no
row, and above the best header every height is without one. The index stays right when no
header names a stored block without a row above the best header (`headers_keep_rows`);
`restored_row_above_best` is a batch that restores one.
-/

namespace Satd.Chain

open KeyedMap Lineage Satd.Bitcoin Satd.Storage List Option

variable (lookup : IndexLookup)

/-- The heights and parents an index lookup shows. -/
def indexView : View BlockHash :=
  fun hash => (lookup hash).map fun entry => (entry.height, entry.header.prevBlockhash)

variable {hash : BlockHash} {entry : BlockIndexEntry}

theorem indexView_eq {lookup : IndexLookup} (found : lookup hash = some entry) :
    indexView lookup hash = some (entry.height, entry.header.prevBlockhash) := by
  simp [indexView, found]

/-! ## The walks -/

section Walks

variable {lookup : IndexLookup} (linked : Linked (indexView lookup))

include linked

section

variable (found : lookup hash = some entry)
include found

variable {below fuel : Nat}

/-- The parent of a block above the bottom is known, one level lower. -/
theorem parent_known (height : entry.height = below + 1) :
    ∃ parent, lookup entry.header.prevBlockhash = some parent ∧ parent.height = below := by
  obtain ⟨grandparent, above⟩ := linked hash below entry.header.prevBlockhash
    (by rw [indexView_eq found, height])
  simp only [indexView, map_eq_some_iff, Prod.mk.injEq] at above
  obtain ⟨parent, known, level, _⟩ := above
  exact ⟨parent, known, level⟩

theorem ancestor_below {level : Nat} (height : entry.height = below + 1) (within : level ≤ below) :
    ancestorAt (indexView lookup) hash level =
      ancestorAt (indexView lookup) entry.header.prevBlockhash level :=
  ancestorAt_parent linked (by rw [indexView_eq found, height]) within

/-- The old chain is left down to the given height. -/
theorem leaveHeights_spec {limit tipHeight : Nat} (enough : entry.height < fuel) :
    ancestorAt (indexView lookup) hash (min entry.height limit) =
        some (leaveHeights lookup limit tipHeight fuel hash).1 ∧
      ∀ height, height ∈ (leaveHeights lookup limit tipHeight fuel hash).2 ↔
        tipHeight < height ∧ limit < height ∧ height ≤ entry.height := by
  induction fuel generalizing hash entry with
  | zero => omega
  | succ fuel ih =>
    rw [leaveHeights, found]
    dsimp only
    by_cases within : entry.height ≤ limit
    · rw [if_pos within, min_eq_left within, ancestorAt_self (indexView_eq found)]
      refine ⟨rfl, fun height => ?_⟩
      simp only [not_mem_nil, false_iff]
      omega
    · obtain ⟨below, height⟩ : ∃ below, entry.height = below + 1 := ⟨entry.height - 1, by omega⟩
      obtain ⟨parent, known, level⟩ := parent_known linked found height
      obtain ⟨reached, heights⟩ := ih known (by omega)
      rw [if_neg within]
      refine ⟨?_, fun other => ?_⟩
      · rw [Nat.min_eq_right (by omega), ancestor_below linked found height (by omega)]
        rwa [Nat.min_eq_right (by omega)] at reached
      · dsimp only
        split
        next above =>
          rw [mem_cons, heights other]
          omega
        next notAbove =>
          rw [heights other]
          omega

/-- The rows taken on the way down, and the block they lead to. -/
theorem takeRows_spec {target tipHeight : Nat} (enough : entry.height < fuel) :
    (∀ height row, (height, row) ∈ (takeRows lookup target tipHeight fuel hash entry).2 ↔
        tipHeight < height ∧ target < height ∧
          ancestorAt (indexView lookup) hash height = some row) ∧
      match (takeRows lookup target tipHeight fuel hash entry).1 with
      | none => target < tipHeight
      | some (reached, reachedEntry) => lookup reached = some reachedEntry ∧
        ancestorAt (indexView lookup) hash (min entry.height target) = some reached := by
  induction fuel generalizing hash entry with
  | zero => omega
  | succ fuel ih =>
    have view := indexView_eq found
    rw [takeRows]
    by_cases within : entry.height ≤ target
    · rw [if_pos within]
      refine ⟨fun height row => ?_, found, ?_⟩
      · simp only [not_mem_nil, false_iff]
        rintro ⟨_, above, ancestor⟩
        rw [ancestorAt_deeper view (by omega)] at ancestor
        cases ancestor
      · rw [min_eq_left within, ancestorAt_self view]
    · rw [if_neg within]
      by_cases low : entry.height ≤ tipHeight
      · rw [if_pos low]
        refine ⟨fun height row => ?_, by dsimp only; omega⟩
        simp only [not_mem_nil, false_iff]
        rintro ⟨above, _, ancestor⟩
        rw [ancestorAt_deeper view (by omega)] at ancestor
        cases ancestor
      · rw [if_neg low]
        obtain ⟨below, height⟩ : ∃ below, entry.height = below + 1 := ⟨entry.height - 1, by omega⟩
        obtain ⟨parent, known, level⟩ := parent_known linked found height
        obtain ⟨rows, reached⟩ := ih known (by omega)
        simp only [known]
        refine ⟨fun other row => ?_, ?_⟩
        · rw [mem_cons, rows other row]
          by_cases top : other = entry.height
          · subst top
            rw [ancestorAt_self view]
            simp only [Prod.mk.injEq, true_and]
            constructor
            · rintro (rfl | ⟨_, _, ancestor⟩)
              · exact ⟨by omega, by omega, rfl⟩
              · rw [ancestorAt_deeper (indexView_eq known) (by omega)] at ancestor
                cases ancestor
            · rintro ⟨_, _, same⟩
              exact .inl (some.inj same).symm
          · by_cases deeper : entry.height < other
            · rw [ancestorAt_deeper view deeper, ancestorAt_deeper (indexView_eq known) (by omega)]
              simp [top]
            · rw [ancestor_below linked found height (by omega)]
              simp [top]
        · cases last :
              (takeRows lookup target tipHeight fuel entry.header.prevBlockhash parent).1 with
          | none => simpa [last] using reached
          | some pair =>
            simp only [last] at reached ⊢
            refine ⟨reached.1, ?_⟩
            rw [Nat.min_eq_right (by omega), ancestor_below linked found height (by omega)]
            rw [← reached.2, Nat.min_eq_right (by omega)]

/-- In step, rows are taken where the two chains differ. -/
theorem takeRowsUntilMet_spec {oldHash : BlockHash} {oldEntry : BlockIndexEntry}
    (foundOld : lookup oldHash = some oldEntry) (level : entry.height = oldEntry.height)
    {tipHeight : Nat} (enough : entry.height < fuel) (height : Nat) (row : BlockHash) :
    (height, row) ∈ takeRowsUntilMet lookup tipHeight fuel hash entry oldHash ↔
      tipHeight < height ∧ ancestorAt (indexView lookup) hash height = some row ∧
        ancestorAt (indexView lookup) oldHash height ≠ some row := by
  induction fuel generalizing hash oldHash entry oldEntry with
  | zero => omega
  | succ fuel ih =>
    have view := indexView_eq found
    have viewOld := indexView_eq foundOld
    rw [takeRowsUntilMet]
    by_cases finished : hash = oldHash ∨ entry.height ≤ tipHeight
    · rw [if_pos finished]
      simp only [not_mem_nil, false_iff]
      rintro ⟨above, ancestor, differs⟩
      rcases finished with rfl | low
      · exact differs ancestor
      · rw [ancestorAt_deeper view (by omega)] at ancestor
        cases ancestor
    · rw [if_neg finished]
      rw [not_or] at finished
      obtain ⟨below, atHeight⟩ : ∃ below, entry.height = below + 1 := ⟨entry.height - 1, by omega⟩
      obtain ⟨parent, known, parentLevel⟩ := parent_known linked found atHeight
      obtain ⟨oldParent, knownOld, oldLevel⟩ := parent_known linked foundOld (level ▸ atHeight)
      have rest := ih known knownOld (by omega) (by omega)
      simp only [known, foundOld, mem_cons, rest]
      by_cases top : height = entry.height
      · subst top
        rw [ancestorAt_self view, level, ancestorAt_self viewOld,
          ancestorAt_deeper (indexView_eq known) (by omega)]
        simp only [Prod.mk.injEq, true_and, false_and, and_false, or_false, reduceCtorEq,
          some.injEq, ne_eq]
        constructor
        · rintro rfl
          exact ⟨by omega, rfl, fun same => finished.1 same.symm⟩
        · rintro ⟨_, same, _⟩
          exact same.symm
      · by_cases deeper : entry.height < height
        · rw [ancestorAt_deeper view deeper, ancestorAt_deeper (indexView_eq known) (by omega)]
          simp [top]
        · rw [ancestor_below linked found atHeight (by omega),
            ancestor_below linked foundOld (level ▸ atHeight) (by omega)]
          simp [top]

end

/-- The rows of a new best header: its ancestors above the tip, where they are not the old
best header's, and without the old rows above it. -/
theorem mem_headerChainRows {newBest oldBest : BlockHash} {newEntry oldEntry : BlockIndexEntry}
    (foundNew : lookup newBest = some newEntry) (foundOld : lookup oldBest = some oldEntry)
    {tipHeight : Nat} :
    (∀ height row, (height, row) ∈ (headerChainRows lookup newBest oldBest tipHeight).1 ↔
        tipHeight < height ∧ ancestorAt (indexView lookup) newBest height = some row ∧
          ancestorAt (indexView lookup) oldBest height ≠ some row) ∧
      ∀ height, height ∈ (headerChainRows lookup newBest oldBest tipHeight).2 ↔
        tipHeight < height ∧ newEntry.height < height ∧ height ≤ oldEntry.height := by
  obtain ⟨left, leftHeights⟩ := leaveHeights_spec linked foundOld (Nat.lt_succ_self oldEntry.height)
  obtain ⟨grandparent, leftView⟩ := view_of_ancestorAt linked left
  simp only [headerChainRows, foundNew, foundOld, elim_some]
  generalize leaveHeights lookup newEntry.height tipHeight (oldEntry.height + 1) oldBest = gone
    at left leftHeights leftView
  simp only [indexView, map_eq_some_iff, Prod.mk.injEq] at leftView
  obtain ⟨goneEntry, goneFound, goneHeight, _⟩ := leftView
  obtain ⟨rows, reached⟩ := takeRows_spec linked foundNew (Nat.lt_succ_self newEntry.height)
  simp only [goneFound, elim_some]
  generalize takeRows lookup goneEntry.height tipHeight (newEntry.height + 1) newBest newEntry =
    taken at rows reached
  -- Above the height where the walks start in step, the old chain has no ancestor.
  have missing : ∀ height, goneEntry.height < height → height ≤ newEntry.height →
      ancestorAt (indexView lookup) oldBest height = none := by
    intro height above within
    exact ancestorAt_deeper (indexView_eq foundOld) (by omega)
  have bounded : ∀ height row, ancestorAt (indexView lookup) newBest height = some row →
      height ≤ newEntry.height := by
    intro height row ancestor
    exact (ancestorAt_isSome (indexView_eq foundNew)).mp (by rw [ancestor]; rfl)
  cases last : taken.1 with
  | none =>
    simp only [last] at reached ⊢
    refine ⟨fun height row => ?_, leftHeights⟩
    rw [rows height row]
    constructor
    · rintro ⟨above, beyond, ancestor⟩
      rw [missing height beyond (bounded height row ancestor)]
      exact ⟨above, ancestor, by simp⟩
    · rintro ⟨above, ancestor, _⟩
      exact ⟨above, by omega, ancestor⟩
  | some pair =>
    obtain ⟨block, blockEntry⟩ := pair
    simp only [last] at reached ⊢
    obtain ⟨blockFound, meets⟩ := reached
    refine ⟨fun height row => ?_, leftHeights⟩
    obtain ⟨_, blockView⟩ := view_of_ancestorAt linked meets
    rw [indexView_eq blockFound, some.injEq, Prod.mk.injEq] at blockView
    have level : blockEntry.height = goneEntry.height := by omega
    rw [mem_append, rows height row, takeRowsUntilMet_spec linked blockFound goneFound level
      (Nat.lt_succ_self blockEntry.height)]
    by_cases beyond : goneEntry.height < height
    · rw [ancestorAt_deeper (indexView_eq blockFound) (by omega)]
      simp only [beyond, true_and, reduceCtorEq, false_and, and_false, or_false]
      refine and_congr_right fun above => ⟨fun ancestor => ⟨ancestor, ?_⟩, fun both => both.1⟩
      rw [missing height beyond (bounded height row ancestor)]
      simp
    · have fromNew : ancestorAt (indexView lookup) newBest height =
          ancestorAt (indexView lookup) block height :=
        ancestorAt_ancestor linked meets (by omega)
      have fromOld : ancestorAt (indexView lookup) oldBest height =
          ancestorAt (indexView lookup) gone.1 height :=
        ancestorAt_ancestor linked left (by omega)
      rw [fromNew, fromOld]
      simp [beyond]

end Walks

/-! ### The height of the tip bounds them all -/

theorem leaveHeights_above (limit tipHeight fuel : Nat) (hash : BlockHash) :
    ∀ height ∈ (leaveHeights lookup limit tipHeight fuel hash).2, tipHeight < height := by
  induction fuel generalizing hash with
  | zero => simp [leaveHeights]
  | succ fuel ih =>
    intro height member
    rw [leaveHeights] at member
    split at member
    · simp at member
    · split at member
      · simp at member
      · dsimp only at member
        split at member
        next above =>
          rcases mem_cons.mp member with rfl | later
          · exact above
          · exact ih _ height later
        next => exact ih _ height member

theorem takeRows_above (target tipHeight fuel : Nat) (hash : BlockHash) (entry : BlockIndexEntry) :
    ∀ row ∈ (takeRows lookup target tipHeight fuel hash entry).2, tipHeight < row.1 := by
  induction fuel generalizing hash entry with
  | zero => simp [takeRows]
  | succ fuel ih =>
    intro row member
    rw [takeRows] at member
    split at member
    · simp at member
    · split at member
      · simp at member
      next above =>
        rw [not_le] at above
        split at member
        · rw [mem_singleton.mp member]
          exact above
        · rcases mem_cons.mp member with rfl | later
          · exact above
          · exact ih _ _ row later

theorem takeRowsUntilMet_above (tipHeight fuel : Nat)
    (hash oldHash : BlockHash) (entry : BlockIndexEntry) :
    ∀ row ∈ takeRowsUntilMet lookup tipHeight fuel hash entry oldHash, tipHeight < row.1 := by
  induction fuel generalizing hash oldHash entry with
  | zero => simp [takeRowsUntilMet]
  | succ fuel ih =>
    intro row member
    rw [takeRowsUntilMet] at member
    split at member
    · simp at member
    next unfinished =>
      rw [not_or, not_le] at unfinished
      rcases mem_cons.mp member with rfl | later
      · exact unfinished.2
      · split at later
        · exact ih _ _ _ row later
        · simp at later

theorem headerChainRows_above {newBest oldBest : BlockHash} {tipHeight : Nat} :
    (∀ row ∈ (headerChainRows lookup newBest oldBest tipHeight).1, tipHeight < row.1) ∧
      ∀ height ∈ (headerChainRows lookup newBest oldBest tipHeight).2, tipHeight < height := by
  rw [headerChainRows]
  split
  · simp
  · dsimp only
    split
    · exact ⟨takeRows_above _ _ _ _ _ _, leaveHeights_above _ _ _ _ _⟩
    · refine ⟨fun row member => ?_, leaveHeights_above _ _ _ _ _⟩
      rcases mem_append.mp member with taken | met
      · exact takeRows_above _ _ _ _ _ _ row taken
      · exact takeRowsUntilMet_above _ _ _ _ _ _ row met

/-! ## Scanning a batch -/

/-- The entries to write are those of the batch, and the best one is the heaviest of them. -/
structure Staged (scan : HeaderScan) : Prop where
  puts : ∀ hash, lastPut hash scan.puts = scan.batchIndex.lookup hash
  best : ∀ best, scan.best = some best → ∃ entry, scan.batchIndex.lookup best.1 = some entry ∧
    entry.chainwork = best.2
  heaviest : ∀ hash entry, scan.batchIndex.lookup hash = some entry →
    ∃ best, scan.best = some best ∧ entry.chainwork ≤ best.2

/-- The header passes the checks at a time of day, for what the store holds and for something a
batch may have staged beside it. -/
def Passes (rules : HeaderRules) (store : InMemoryStore) (now : Nat) (header : Header)
    (parent : BlockIndexEntry) : Prop :=
  ∃ lastCheckpoint lookup,
    (∀ hash entry, store.getBlockIndex hash = some entry → lookup hash = some entry) ∧
      checkHeader rules header parent lastCheckpoint now lookup = .ok ()

/-- What a scan has staged: new entries, each on a known parent, and rows to restore. -/
structure Scanned (rules : HeaderRules) (store : InMemoryStore) (now : Nat) (headers : List Header)
    (scan : HeaderScan) : Prop extends Staged scan where
  fresh : ∀ hash entry, scan.batchIndex.lookup hash = some entry → store.getBlockIndex hash = none
  entries : ∀ hash entry, scan.batchIndex.lookup hash = some entry → ∃ header ∈ headers, ∃ parent,
    rules.blockHash header = hash ∧ entry = headerEntry header parent ∧
      scan.lookup store header.prevBlockhash = some parent ∧ Passes rules store now header parent
  repairs : ∀ row ∈ scan.repairs, store.getBlockHashByHeight row.1 = none ∧
    ∃ header ∈ headers, ∃ entry ∈ store.getBlockIndex (rules.blockHash header),
      entry.status = .dataStored ∧ entry.height = row.1

section Scan

variable {rules : HeaderRules} {store : InMemoryStore} {now : Nat} {headers : List Header}
  {scan : HeaderScan}

theorem scanned_start (lastCheckpoint : Option Nat) :
    Scanned rules store now headers { lastCheckpoint } where
  puts hash := rfl
  fresh hash entry found := by simp at found
  entries hash entry found := by simp at found
  best best found := by simp at found
  heaviest hash entry found := by simp at found
  repairs row member := by simp at member

section

variable (scanned : Scanned rules store now headers scan)
include scanned

/-- The store and the batch know different blocks, so either may be asked first. -/
theorem Scanned.lookup_comm (hash : BlockHash) :
    (store.getBlockIndex hash).or (scan.batchIndex.lookup hash) = scan.lookup store hash := by
  rw [HeaderScan.lookup]
  cases found : scan.batchIndex.lookup hash with
  | none => simp
  | some entry => simp [scanned.fresh hash entry found]

theorem Scanned.lookup_store (found : store.getBlockIndex hash = some entry) :
    scan.lookup store hash = some entry := by
  rw [← scanned.lookup_comm, found]
  rfl

/-- Staging a header again changes no entry: it has the same parent as before. -/
theorem Scanned.stage_lookup
    (distinct : Set.InjOn rules.blockHash {header | header ∈ headers}) {header : Header}
    (member : header ∈ headers) {parent : BlockIndexEntry}
    (known : scan.lookup store header.prevBlockhash = some parent)
    (found : scan.batchIndex.lookup hash = some entry) :
    (scan.stage rules header parent).batchIndex.lookup hash = some entry := by
  rw [HeaderScan.stage, lookup_insert]
  split
  next same =>
    obtain ⟨earlier, isHeader, earlierParent, hashed, rfl, earlierKnown, -⟩ :=
      scanned.entries hash entry found
    obtain rfl := distinct isHeader member (hashed.trans same.symm)
    rw [earlierKnown, some.injEq] at known
    rw [known]
  next => exact found

end

variable {header : Header} {parent : BlockIndexEntry}

/-- The best staged header is the new one or the best so far. -/
theorem chosen_stage {scan : HeaderScan} {best : BlockHash × Nat}
    (chosen : (scan.stage rules header parent).best = some best) :
    best = (rules.blockHash header, (headerEntry header parent).chainwork) ∨
      scan.best = some best := by
  rw [HeaderScan.stage] at chosen
  cases old : scan.best with
  | none =>
    rw [old, some.injEq] at chosen
    exact .inl chosen.symm
  | some other =>
    rw [old] at chosen
    dsimp only at chosen
    split at chosen
    · exact .inl (some.inj chosen).symm
    · exact .inr chosen

/-- It is as heavy as either. -/
theorem heaviest_stage {scan : HeaderScan} {work : Nat}
    (bound : work = (headerEntry header parent).chainwork ∨ ∃ best, scan.best = some best ∧
      work ≤ best.2) :
    ∃ best, (scan.stage rules header parent).best = some best ∧ work ≤ best.2 := by
  rw [HeaderScan.stage]
  cases old : scan.best with
  | none =>
    rcases bound with rfl | ⟨best, chosen, _⟩
    · exact ⟨_, rfl, le_rfl⟩
    · simp [old] at chosen
  | some other =>
    have older : (∃ best, scan.best = some best ∧ work ≤ best.2) → work ≤ other.2 := by
      rintro ⟨best, chosen, within⟩
      obtain rfl := some.inj (old.symm.trans chosen)
      exact within
    dsimp only
    split
    next heavier =>
      refine ⟨_, rfl, ?_⟩
      rcases bound with rfl | earlier
      · exact le_rfl
      · exact (older earlier).trans heavier.le
    next notHeavier =>
      refine ⟨_, rfl, ?_⟩
      rcases bound with rfl | earlier
      · exact not_lt.mp notHeavier
      · exact older earlier

variable (scanned : Scanned rules store now headers scan)
  (distinct : Set.InjOn rules.blockHash {header | header ∈ headers})

include scanned distinct

theorem Scanned.stage (member : header ∈ headers)
    (new : store.getBlockIndex (rules.blockHash header) = none)
    (known : scan.lookup store header.prevBlockhash = some parent)
    (passed : Passes rules store now header parent) :
    Scanned rules store now headers (scan.stage rules header parent) := by
  have kept : ∀ hash entry, scan.batchIndex.lookup hash = some entry →
      (scan.stage rules header parent).batchIndex.lookup hash = some entry :=
    fun hash entry found => scanned.stage_lookup distinct member known found
  have lookups : ∀ hash entry, scan.lookup store hash = some entry →
      (scan.stage rules header parent).lookup store hash = some entry := by
    intro hash entry found
    rw [HeaderScan.lookup, or_eq_some_iff] at found ⊢
    obtain staged | ⟨missing, found⟩ := found
    · exact .inl (kept hash entry staged)
    · have different : rules.blockHash header ≠ hash := by
        rintro rfl
        cases new.symm.trans found
      refine .inr ⟨?_, found⟩
      rw [HeaderScan.stage, lookup_insert, if_neg different, missing]
  have inserted : ∀ hash entry,
      (scan.stage rules header parent).batchIndex.lookup hash = some entry →
      hash = rules.blockHash header ∧ entry = headerEntry header parent ∨
        scan.batchIndex.lookup hash = some entry := by
    intro hash entry found
    rw [HeaderScan.stage, lookup_insert] at found
    split at found
    next same => exact .inl ⟨same.symm, (some.inj found).symm⟩
    next => exact .inr found
  have self : (scan.stage rules header parent).batchIndex.lookup (rules.blockHash header) =
      some (headerEntry header parent) := by
    rw [HeaderScan.stage, lookup_insert, if_pos rfl]
  have staged : Staged (scan.stage rules header parent) := by
    constructor
    · intro hash
      rw [HeaderScan.stage, lastPut_append, lookup_insert, scanned.puts hash]
      by_cases same : rules.blockHash header = hash <;> simp [lastPut, same]
    · intro best chosen
      rcases chosen_stage chosen with rfl | old
      · exact ⟨_, self, rfl⟩
      · obtain ⟨entry, found, work⟩ := scanned.best best old
        exact ⟨entry, kept _ _ found, work⟩
    · intro hash entry found
      rcases inserted hash entry found with ⟨rfl, rfl⟩ | old
      · exact heaviest_stage (.inl rfl)
      · obtain ⟨best, chosen, bound⟩ := scanned.heaviest hash entry old
        exact heaviest_stage (.inr ⟨best, chosen, bound⟩)
  refine ⟨staged, ?_, ?_, scanned.repairs⟩
  · intro hash entry found
    rcases inserted hash entry found with ⟨rfl, _⟩ | old
    · exact new
    · exact scanned.fresh hash entry old
  · intro hash entry found
    rcases inserted hash entry found with ⟨rfl, rfl⟩ | old
    · exact ⟨header, member, parent, rfl, rfl, lookups _ _ known, passed⟩
    · obtain ⟨earlier, isHeader, earlierParent, hashed, same, earlierKnown, earlierPassed⟩ :=
        scanned.entries hash entry old
      exact ⟨earlier, isHeader, earlierParent, hashed, same, lookups _ _ earlierKnown,
        earlierPassed⟩

theorem Scanned.next (member : header ∈ headers)
    {after : HeaderScan} (ran : scan.next rules store now header = .ok after) :
    Scanned rules store now headers after := by
  rw [HeaderScan.next] at ran
  cases existing : store.getBlockIndex (rules.blockHash header) with
  | some entry =>
    rw [existing] at ran
    dsimp only at ran
    split at ran
    next restore =>
      cases ran
      refine ⟨{ scanned with }, scanned.fresh, scanned.entries, fun row among => ?_⟩
      rcases mem_append.mp among with old | same
      · exact scanned.repairs row old
      · rw [mem_singleton.mp same]
        exact ⟨restore.2, header, member, entry, existing, restore.1, rfl⟩
    next =>
      cases ran
      exact scanned
  | none =>
    rw [existing] at ran
    rw [scanned.lookup_comm] at ran
    cases known : scan.lookup store header.prevBlockhash with
    | none => simp [known] at ran
    | some parent =>
      simp only [known] at ran
      split at ran
      next => cases ran
      next passed =>
        cases ran
        exact scanned.stage distinct member existing known
          ⟨_, _, fun hash entry => scanned.lookup_store, passed⟩

theorem Scanned.run {rest : List Header} (among : ∀ header ∈ rest, header ∈ headers) :
    Scanned rules store now headers (scanHeaders rules store now rest scan).1 := by
  induction rest generalizing scan with
  | nil => exact scanned
  | cons header rest ih =>
    rw [scanHeaders]
    cases ran : scan.next rules store now header with
    | error error => exact scanned
    | ok after =>
      exact ih (scanned.next distinct (among header mem_cons_self) ran)
        fun other later => among other (mem_cons_of_mem _ later)

omit distinct in
/-- The batch and the store together are linked. -/
theorem Scanned.linked (linked : Linked (indexView store.getBlockIndex)) :
    Linked (indexView (scan.lookup store)) := by
  intro hash depth parentHash here
  simp only [indexView, map_eq_some_iff, Prod.mk.injEq] at here ⊢
  obtain ⟨entry, found, height, prev⟩ := here
  rw [HeaderScan.lookup, or_eq_some_iff] at found
  obtain staged | ⟨-, found⟩ := found
  · obtain ⟨header, _, parent, _, rfl, known, -⟩ := scanned.entries hash entry staged
    have level : parent.height = depth := Nat.succ.inj height
    exact ⟨parent.header.prevBlockhash, parent, prev ▸ known, level, rfl⟩
  · obtain ⟨parent, known, level⟩ := parent_known linked found height
    exact ⟨parent.header.prevBlockhash, parent, prev ▸ scanned.lookup_store known, level, rfl⟩

end Scan

/-! ## Committing -/

/-- The index is linked and knows the best header. -/
structure HeaderState.Sound (state : HeaderState) : Prop where
  linked : Linked (indexView state.store.getBlockIndex)
  best : ∃ entry, state.store.getBlockIndex state.bestHeader.1 = some entry

/-- The height of the best header. -/
def HeaderState.bestHeight (state : HeaderState) : Nat :=
  (state.store.getBlockIndex state.bestHeader.1).elim 0 BlockIndexEntry.height

/-- Above the tip there is a row exactly up to the best header's height, and it names the best
header's ancestor. -/
def HeaderState.RowsFollowBest (state : HeaderState) : Prop :=
  ∀ height, state.tipHeight < height →
    ((state.store.getBlockHashByHeight height).isSome ↔ height ≤ state.bestHeight) ∧
    ∀ row, state.store.getBlockHashByHeight height = some row →
      ancestorAt (indexView state.store.getBlockIndex) state.bestHeader.1 height = some row

theorem HeaderState.Sound.rows_iff {state : HeaderState} (sound : state.Sound) :
    state.RowsFollowBest ↔ ∀ height, state.tipHeight < height →
      state.store.getBlockHashByHeight height =
        ancestorAt (indexView state.store.getBlockIndex) state.bestHeader.1 height := by
  obtain ⟨entry, found⟩ := sound.best
  have level : state.bestHeight = entry.height := by simp [HeaderState.bestHeight, found]
  constructor
  · intro follows height above
    obtain ⟨present, names⟩ := follows height above
    cases row : state.store.getBlockHashByHeight height with
    | some hash => rw [names hash row]
    | none =>
      rw [row, level] at present
      rw [ancestorAt_deeper (indexView_eq found)]
      by_contra within
      exact absurd (present.mpr (not_lt.mp within)) (by simp)
  · intro same height above
    rw [same height above, level, ancestorAt_isSome (indexView_eq found)]
    exact ⟨.rfl, fun row ancestor => ancestor⟩

section Commit

variable {state after : HeaderState} {scan : HeaderScan}

/-- The header that becomes the best one. -/
def heavier (state : HeaderState) (scan : HeaderScan) : Option (BlockHash × Nat) :=
  scan.best.filter fun best => state.bestHeader.2 < best.2

/-- The rows that are written and dropped for it. -/
def bestRows (state : HeaderState) (scan : HeaderScan) : List (Nat × BlockHash) × List Nat :=
  match heavier state scan with
  | none => ([], [])
  | some best =>
    headerChainRows (scan.lookup state.store) best.1 state.bestHeader.1 state.tipHeight

/-- All of them lie above the tip. -/
theorem bestRows_above {state : HeaderState} {scan : HeaderScan} :
    (∀ row ∈ (bestRows state scan).1, state.tipHeight < row.1) ∧
      ∀ height ∈ (bestRows state scan).2, state.tipHeight < height := by
  rw [bestRows]
  split
  · simp
  · exact headerChainRows_above _

theorem commit_eq (staged : Staged scan) (ran : commitAcceptedHeaders state scan true = .ok after) :
    after.tipHeight = state.tipHeight ∧
    after.bestHeader = (heavier state scan).getD state.bestHeader ∧
    after.store.getBlockIndex = scan.lookup state.store ∧
    ∀ height, after.store.getBlockHashByHeight height =
      if height ∈ (bestRows state scan).2 then none
      else ((lastPut height (bestRows state scan).1).or (lastPut height
        (scan.repairs.filter fun row => state.tipHeight < row.1))).or
          (state.store.getBlockHashByHeight height) := by
  rw [commitAcceptedHeaders] at ran
  have written : ∀ batch : StoreBatch, batch.blockIndexPuts = scan.puts →
      (state.store.writeBatch batch).getBlockIndex = scan.lookup state.store := by
    intro batch puts
    funext hash
    simp [InMemoryStore.getBlockIndex, InMemoryStore.writeBatch, lookup_putAll, puts, staged.puts,
      HeaderScan.lookup]
  have heights : ∀ (batch : StoreBatch) (height : Nat),
      (state.store.writeBatch batch).getBlockHashByHeight height =
        if height ∈ batch.heightHash.removes then none
        else (lastPut height batch.heightHash.puts).or
          (state.store.getBlockHashByHeight height) := by
    intro batch height
    simp [InMemoryStore.getBlockHashByHeight, InMemoryStore.writeBatch, Writes.lookup_apply]
  rw [← heavier] at ran
  cases chosen : heavier state scan with
  | none =>
    simp only [chosen] at ran
    cases ran
    refine ⟨rfl, rfl, written _ rfl, fun height => ?_⟩
    simp only [bestRows, chosen, heights, lastPut_append]
  | some best =>
    have isBest : scan.best = some best := (filter_eq_some_iff.mp chosen).1
    obtain ⟨entry, found, _⟩ := staged.best best isBest
    simp only [chosen, found] at ran
    cases ran
    refine ⟨rfl, rfl, written _ rfl, fun height => ?_⟩
    simp [bestRows, chosen, heights, lastPut_append]

/-- Rows are written and dropped above the tip only. -/
theorem commit_low (staged : Staged scan) (ran : commitAcceptedHeaders state scan true = .ok after)
    {height : Nat} (low : height ≤ state.tipHeight) :
    after.store.getBlockHashByHeight height = state.store.getBlockHashByHeight height := by
  obtain ⟨_, _, _, rows⟩ := commit_eq staged ran
  obtain ⟨puts, removes⟩ := bestRows_above
  have noRemove : height ∉ (bestRows state scan).2 := fun among => by
    have above := removes height among
    omega
  have noPut : lastPut height (bestRows state scan).1 = none := by
    rw [lastPut_eq_none, List.mem_map]
    rintro ⟨row, among, rfl⟩
    have above := puts row among
    omega
  have noRepair : lastPut height (scan.repairs.filter fun row => state.tipHeight < row.1) =
      none := by
    rw [lastPut_eq_none, List.mem_map]
    rintro ⟨⟨other, row⟩, among, rfl⟩
    have above : state.tipHeight < other := by simpa using (mem_filter.mp among).2
    omega
  rw [rows height, if_neg noRemove, noPut, noRepair]
  rfl

variable {rules : HeaderRules} {now : Nat} {headers : List Header}
  (scanned : Scanned rules state.store now headers scan) (sound : state.Sound)
  (ran : commitAcceptedHeaders state scan true = .ok after)

include scanned sound ran

theorem commit_sound : after.Sound := by
  obtain ⟨_, best, index, _⟩ := commit_eq scanned.toStaged ran
  refine ⟨index ▸ scanned.linked sound.linked, ?_⟩
  rw [best, index]
  cases chosen : heavier state scan with
  | none =>
    obtain ⟨entry, found⟩ := sound.best
    exact ⟨entry, scanned.lookup_store found⟩
  | some best =>
    obtain ⟨entry, found, _⟩ := scanned.best best (filter_eq_some_iff.mp chosen).1
    exact ⟨entry, by simp [HeaderScan.lookup, found]⟩

/-- The rows written and dropped for a new best header, in terms of the two lineages. -/
theorem mem_bestRows : (∀ height row, (height, row) ∈ (bestRows state scan).1 ↔
      state.tipHeight < height ∧
      ancestorAt (indexView after.store.getBlockIndex) after.bestHeader.1 height = some row ∧
      ancestorAt (indexView after.store.getBlockIndex) state.bestHeader.1 height ≠ some row) ∧
    ∀ height, height ∈ (bestRows state scan).2 ↔ state.tipHeight < height ∧
      ancestorAt (indexView after.store.getBlockIndex) after.bestHeader.1 height = none ∧
      ancestorAt (indexView after.store.getBlockIndex) state.bestHeader.1 height ≠ none := by
  obtain ⟨_, best, index, _⟩ := commit_eq scanned.toStaged ran
  have linked := scanned.linked sound.linked
  obtain ⟨oldEntry, foundOld⟩ := sound.best
  rw [best, index]
  cases chosen : heavier state scan with
  | none => simp [bestRows, chosen]
  | some best =>
    obtain ⟨entry, found, _⟩ := scanned.best best (filter_eq_some_iff.mp chosen).1
    have foundNew : scan.lookup state.store best.1 = some entry := by
      simp [HeaderScan.lookup, found]
    have foundEarlier := scanned.lookup_store foundOld
    obtain ⟨puts, removes⟩ := mem_headerChainRows linked foundNew foundEarlier
    simp only [bestRows, chosen, getD_some]
    refine ⟨puts, fun height => ?_⟩
    rw [removes height, ← not_isSome_iff_eq_none, ← isSome_iff_ne_none,
      ancestorAt_isSome (indexView_eq foundNew), ancestorAt_isSome (indexView_eq foundEarlier),
      not_le]

/-- The rows still follow the best header if none was restored above the tip. -/
theorem commit_rows (follows : state.RowsFollowBest)
    (low : ∀ row ∈ scan.repairs, row.1 ≤ state.tipHeight) : after.RowsFollowBest := by
  have soundAfter := commit_sound scanned sound ran
  obtain ⟨tip, _, index, rows⟩ := commit_eq scanned.toStaged ran
  obtain ⟨puts, removes⟩ := mem_bestRows scanned sound ran
  obtain ⟨oldEntry, foundOld⟩ := sound.best
  rw [soundAfter.rows_iff, tip]
  rw [sound.rows_iff] at follows
  -- The old best header has the ancestors it had.
  have before : ∀ height, ancestorAt (indexView after.store.getBlockIndex) state.bestHeader.1
      height = ancestorAt (indexView state.store.getBlockIndex) state.bestHeader.1 height := by
    intro height
    rw [index]
    apply ancestorAt_extend sound.linked _ (indexView_eq foundOld)
    intro hash entry found
    simp only [indexView, map_eq_some_iff] at found ⊢
    obtain ⟨stored, known, same⟩ := found
    exact ⟨stored, scanned.lookup_store known, same⟩
  have noRepair : (scan.repairs.filter fun row => state.tipHeight < row.1) = [] := by
    rw [filter_eq_nil_iff]
    intro row among
    simpa using low row among
  intro height above
  rw [rows height, noRepair]
  by_cases dropped : height ∈ (bestRows state scan).2
  · rw [if_pos dropped, ((removes height).mp dropped).2.1]
  · rw [if_neg dropped]
    cases last : lastPut height (bestRows state scan).1 with
    | some put =>
      rw [((puts height put).mp (mem_of_lastPut last)).2.1]
      rfl
    | none =>
      -- Where no row is entered, both lineages name the same block.
      have agree : ancestorAt (indexView after.store.getBlockIndex) after.bestHeader.1 height =
          ancestorAt (indexView after.store.getBlockIndex) state.bestHeader.1 height := by
        cases found : ancestorAt (indexView after.store.getBlockIndex) after.bestHeader.1
            height with
        | none =>
          by_contra differs
          exact dropped ((removes height).mpr ⟨above, found, fun none => differs none.symm⟩)
        | some row =>
          by_contra differs
          have put := (puts height row).mpr ⟨above, found, fun same => differs same.symm⟩
          rw [lastPut_eq_none] at last
          exact last (mem_map.mpr ⟨(height, row), put, rfl⟩)
      rw [agree, before, ← follows height above]
      rfl

end Commit

/-! ## Runs -/

/-- A call that accepts headers, with the time of day and whether the store takes the write. -/
inductive HeaderCall where
  | single (now : Nat) (writable : Bool) (header : Header)
  | batch (now : Nat) (writable : Bool) (headers : List Header)

variable (rules : HeaderRules)

namespace HeaderCall

/-- The headers a call is given. -/
def given : HeaderCall → List Header
  | .single _ _ header => [header]
  | .batch _ _ headers => headers

/-- The time of day at a call. -/
def now : HeaderCall → Nat
  | .single now _ _ | .batch now _ _ => now

def run (state : HeaderState) : HeaderCall → HeaderState
  | .single now writable header => (acceptHeader rules now writable header state).1
  | .batch now writable headers => (acceptHeaders rules now writable headers state).1

/-- No header of the call is that of a stored block without a row, above the tip and above the
best header. -/
def LeavesGaps (state : HeaderState) (call : HeaderCall) : Prop :=
  ∀ header ∈ call.given, ∀ entry ∈ state.store.getBlockIndex (rules.blockHash header),
    entry.status = .dataStored → state.store.getBlockHashByHeight entry.height = none →
      entry.height ≤ max state.tipHeight state.bestHeight

end HeaderCall

/-- What one call does: it keeps the state sound and the rows at or below the tip, and the
rows above still follow the best header if it leaves the gaps. -/
structure CallKeeps (rules : HeaderRules) (state : HeaderState) (call : HeaderCall) : Prop where
  sound : (call.run rules state).Sound
  tip : (call.run rules state).tipHeight = state.tipHeight
  low : ∀ height ≤ state.tipHeight, (call.run rules state).store.getBlockHashByHeight height =
    state.store.getBlockHashByHeight height
  rows : state.RowsFollowBest → call.LeavesGaps rules state →
    (call.run rules state).RowsFollowBest

theorem commit_unwritable (state : HeaderState) (scan : HeaderScan) :
    commitAcceptedHeaders state scan false = .error .store := by
  simp [commitAcceptedHeaders]

theorem commit_writable (state : HeaderState) (scan : HeaderScan) :
    ∃ after, commitAcceptedHeaders state scan true = .ok after := by
  simp only [commitAcceptedHeaders, if_true]
  split
  · exact ⟨_, rfl⟩
  · split
    · exact ⟨_, rfl⟩
    · exact ⟨_, rfl⟩

/-- A call changes nothing, or commits what it has scanned. -/
def HeaderCall.Ran (state : HeaderState) (call : HeaderCall) : Prop :=
  call.run rules state = state ∨ ∃ scan, Scanned rules state.store call.now call.given scan ∧
    commitAcceptedHeaders state scan true = .ok (call.run rules state)

theorem acceptHeader_ran {state : HeaderState} {now : Nat} {writable : Bool}
    {header : Header} : (HeaderCall.single now writable header).Ran rules state := by
  have unchanged : (acceptHeader rules now writable header state).1 = state →
      (HeaderCall.single now writable header).Ran rules state := .inl
  cases known : state.store.getBlockIndex (rules.blockHash header) with
  | some entry => exact unchanged (by simp [acceptHeader, known])
  | none =>
    cases parent : state.store.getBlockIndex header.prevBlockhash with
    | none => exact unchanged (by simp [acceptHeader, known, parent])
    | some parentEntry =>
      cases checked : checkHeader rules header parentEntry
          (lastCheckpointInIndex rules state.store) now state.store.getBlockIndex with
      | error error => exact unchanged (by simp [acceptHeader, known, parent, checked])
      | ok passed =>
        have scanned : Scanned rules state.store now [header]
            (.stage rules header parentEntry { lastCheckpoint := none }) :=
          (scanned_start none).stage (by intro first isFirst second isSecond _; simp_all)
            mem_cons_self known (by simp [HeaderScan.lookup, parent])
            ⟨_, _, fun _ _ found => found, checked⟩
        cases writable with
        | false =>
          exact unchanged (by simp [acceptHeader, known, parent, checked, commit_unwritable])
        | true =>
          obtain ⟨after, ran⟩ := commit_writable state
            (.stage rules header parentEntry { lastCheckpoint := none })
          refine .inr ⟨_, scanned, ?_⟩
          simp [HeaderCall.run, acceptHeader, known, parent, checked, ran]

theorem acceptHeaders_ran {state : HeaderState} {now : Nat} {writable : Bool}
    {headers : List Header} (distinct : Set.InjOn rules.blockHash {header | header ∈ headers}) :
    (HeaderCall.batch now writable headers).Ran rules state := by
  have scanned : Scanned rules state.store now headers _ :=
    (scanned_start (lastCheckpointInIndex rules state.store)).run distinct
      fun header member => member
  generalize result : scanHeaders rules state.store now headers
    { lastCheckpoint := lastCheckpointInIndex rules state.store } = scanResult at scanned
  cases writable with
  | false =>
    left
    simp only [HeaderCall.run, acceptHeaders, result, commit_unwritable]
    split <;> rfl
  | true =>
    obtain ⟨after, ran⟩ := commit_writable state scanResult.1
    by_cases staged : 0 < scanResult.1.accepted ∨ scanResult.1.repairs ≠ []
    · refine .inr ⟨scanResult.1, scanned, ?_⟩
      simp only [HeaderCall.run, acceptHeaders, result, if_pos staged, ran]
    · exact .inl (by simp [HeaderCall.run, acceptHeaders, result, if_neg staged])

theorem HeaderCall.ran (state : HeaderState) (call : HeaderCall)
    (distinct : Set.InjOn rules.blockHash {header | header ∈ call.given}) :
    call.Ran rules state := by
  cases call with
  | single now writable header => exact acceptHeader_ran rules
  | batch now writable headers => exact acceptHeaders_ran rules distinct

theorem HeaderCall.keeps {rules : HeaderRules} {state : HeaderState} (sound : state.Sound)
    (call : HeaderCall) (distinct : Set.InjOn rules.blockHash {header | header ∈ call.given}) :
    CallKeeps rules state call := by
  rcases call.ran rules state distinct with same | ⟨scan, scanned, ran⟩
  · exact ⟨by rwa [same], by rw [same], fun height _ => by rw [same],
      fun follows _ => by rwa [same]⟩
  · refine ⟨commit_sound scanned sound ran, (commit_eq scanned.toStaged ran).1,
      fun height low => commit_low scanned.toStaged ran low, fun follows gaps => ?_⟩
    refine commit_rows scanned sound ran follows fun row among => ?_
    -- A restored row fills a gap, and up to the best header there is none.
    obtain ⟨gap, header, member, entry, known, stored, height⟩ := scanned.repairs row among
    have low := gaps header member entry known stored (height ▸ gap)
    by_contra above
    have present := (follows row.1 (by omega)).1.mpr (by omega)
    rw [gap] at present
    cases present

section Runs

variable {rules} {state : HeaderState} {calls : List HeaderCall}

variable (sound : state.Sound) (follows : state.RowsFollowBest)
  (distinct : ∀ call ∈ calls, Set.InjOn rules.blockHash {header | header ∈ call.given})
include sound distinct

/-- No run changes a row at or below the tip. -/
theorem low_rows_kept :
    Run.Throughout (HeaderCall.run rules) (fun after => after.tipHeight = state.tipHeight ∧
      ∀ height ≤ state.tipHeight, after.store.getBlockHashByHeight height =
        state.store.getBlockHashByHeight height) state calls := by
  have kept : Run.Throughout (HeaderCall.run rules) (fun after => after.Sound ∧
      after.tipHeight = state.tipHeight ∧ ∀ height ≤ state.tipHeight,
        after.store.getBlockHashByHeight height = state.store.getBlockHashByHeight height)
      state calls := by
    apply Run.throughout_of_kept _ ⟨sound, rfl, fun height _ => rfl⟩
    rintro before ⟨kept, tip, low⟩ call member
    have keeps := call.keeps kept (distinct call member)
    refine ⟨keeps.sound, keeps.tip.trans tip, fun height within => ?_⟩
    rw [keeps.low height (tip ▸ within), low height within]
  exact Run.Throughout.imp (fun after both => both.2) kept

include follows

/-- The rows above the tip follow the best header throughout every run of header calls of which
none is given the header of a stored block without a row above the tip and the best header. No
run at all changes a row at or below the tip. A restored row is what could break the first, and
such calls restore none. -/
theorem headers_keep_rows :
    (Run.EachStep (HeaderCall.run rules) (fun before call => call.LeavesGaps rules before) state
        calls →
      Run.Throughout (HeaderCall.run rules) HeaderState.RowsFollowBest state calls) ∧
    Run.Throughout (HeaderCall.run rules) (fun after => after.tipHeight = state.tipHeight ∧
      ∀ height ≤ state.tipHeight, after.store.getBlockHashByHeight height =
        state.store.getBlockHashByHeight height) state calls := by
  refine ⟨fun gaps => ?_, low_rows_kept sound distinct⟩
  have kept : Run.Throughout (HeaderCall.run rules) (fun after => after.Sound ∧
      after.RowsFollowBest) state calls := by
    apply Run.throughout_of_eachStep _ ⟨sound, follows⟩ gaps
    rintro before ⟨kept, holds⟩ call member gap
    have keeps := call.keeps kept (distinct call member)
    exact ⟨keeps.sound, keeps.rows holds gap⟩
  exact Run.Throughout.imp (fun after both => both.2) kept

end Runs

/-- A block hash that shows the nonce. -/
def nonceRules : HeaderRules where
  blockHash header := Hash256.repeated (UInt8.ofNat header.nonce.toNat)
  checkProofOfWork _ := .ok ()
  checkDifficulty _ _ _ := .ok ()
  checkHeaderContext _ _ _ _ _ := .ok ()
  enforceCheckpoints := false
  checkpoints := []

def forkHeader (prev nonce : UInt8) : Header :=
  ⟨1, Hash256.repeated prev, Hash256.repeated 0, 0, 0x207fffff, nonce.toUInt32⟩

def forkEntry (prev nonce : UInt8) (height : Nat) (status : BlockStatus) (chainwork : Nat) :
    Hash256 × BlockIndexEntry :=
  (Hash256.repeated nonce, ⟨forkHeader prev nonce, height, status, 1, 0, 0, chainwork⟩)

/-- Block 1 is the tip. On it are the best header 2, with much work, and the stored blocks 3
and 4, one after the other, with less. -/
def forkState : HeaderState where
  store :=
    { blockIndex := putAll ∅ [forkEntry 0 1 0 .valid 2, forkEntry 1 2 1 .headerOnly 100,
        forkEntry 1 3 1 .dataStored 4, forkEntry 3 4 2 .dataStored 6]
      heightIndex := putAll ∅ [(0, Hash256.repeated 1), (1, Hash256.repeated 2)] }
  bestHeader := (Hash256.repeated 2, 100)
  headersTipHeight := 1
  tipHeight := 0

theorem forkState_sound : forkState.Sound := by
  constructor
  · intro hash depth parent here
    simp only [indexView, map_eq_some_iff, Prod.mk.injEq] at here
    obtain ⟨entry, found, height, prev⟩ := here
    rw [InMemoryStore.getBlockIndex, forkState, lookup_putAll, Finmap.lookup_empty,
      or_none] at found
    have among := mem_of_lastPut found
    simp only [forkEntry, mem_cons, Prod.mk.injEq, not_mem_nil, or_false] at among
    rcases among with ⟨_, rfl⟩ | ⟨_, rfl⟩ | ⟨_, rfl⟩ | ⟨_, rfl⟩
    · cases height
    · obtain rfl := Nat.succ.inj height
      subst prev
      exact ⟨.repeated 0, by decide +kernel⟩
    · obtain rfl := Nat.succ.inj height
      subst prev
      exact ⟨.repeated 0, by decide +kernel⟩
    · obtain rfl := Nat.succ.inj height
      subst prev
      exact ⟨.repeated 1, by decide +kernel⟩
  · exact ⟨_, rfl⟩

theorem forkState_follows : forkState.RowsFollowBest := by
  have best : forkState.bestHeight = 1 := by decide +kernel
  intro height above
  by_cases one : height = 1
  · subst one
    refine ⟨by decide +kernel, fun row found => ?_⟩
    have first : forkState.store.getBlockHashByHeight 1 =
        ancestorAt (indexView forkState.store.getBlockIndex) forkState.bestHeader.1 1 := by
      decide +kernel
    rw [← first, found]
  · have low : forkState.tipHeight = 0 := rfl
    have none : forkState.store.getBlockHashByHeight height = none := by
      rw [InMemoryStore.getBlockHashByHeight, forkState, lookup_putAll, Finmap.lookup_empty,
        or_none, lastPut_eq_none]
      simp only [map_cons, map_nil, mem_cons, not_mem_nil, or_false]
      omega
    rw [none, best]
    exact ⟨⟨fun found => (by cases found), fun within => (by omega)⟩,
      fun row found => (by cases found)⟩

/-- Naming block 4 again restores its row, above the best header. -/
theorem restored_row_above_best : forkState.Sound ∧ forkState.RowsFollowBest ∧
    ¬ ((acceptHeaders nonceRules 0 true [forkHeader 3 4] forkState).1).RowsFollowBest := by
  refine ⟨forkState_sound, forkState_follows, fun follows => ?_⟩
  obtain ⟨present, _⟩ := follows 2 (by decide +kernel)
  revert present
  decide +kernel

/-- Naming block 3 again, whose height has a row, and then a new header on the best one. -/
theorem headers_keep_rows_fork :
    Run.Throughout (HeaderCall.run nonceRules) HeaderState.RowsFollowBest forkState
      [.batch 0 true [forkHeader 1 3], .single 0 true (forkHeader 2 5)] := by
  refine (headers_keep_rows forkState_sound forkState_follows ?_).1 ?_
  · intro call member
    simp only [mem_cons, not_mem_nil, or_false] at member
    rcases member with rfl | rfl <;>
      · intro first isFirst second isSecond _
        simp_all [HeaderCall.given]
  · simp only [HeaderCall.LeavesGaps]
    decide +kernel

end Satd.Chain
