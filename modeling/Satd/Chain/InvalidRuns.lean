import Satd.Chain.Activation

/-!
# Runs of calls on the chain

What one call leaves of the marks and of the best header, and from that what a run of calls
leaves. Three things break it, and the run is to be free of them: a header that passes the
checks on a marked branch, a new block on the tip that cannot be connected for a fault of the
node's own storage and stays in the index as a bare header, and a reconsidered branch whose
blocks cannot all be read and connected, after which the best header is not looked for again.
Each is a condition on the call, on what it finds around it and on the state before it.

`header_on_invalid_parent` is a run that ends with a header on a marked branch, and
`invalid_branches_stay_out` is what holds of all other runs. Where the blocks of the active chain
are found needs the first of the three conditions only (`active_rows_exact`).
-/

namespace Satd.Chain

open KeyedMap Lineage Satd.Bitcoin Satd.Storage Option

/-! ## New blocks -/

variable {hash : BlockHash} {entry : BlockIndexEntry} {rules : BlockRules} {genesis : Header}
  {headers : Set Header}

section Growth

/-- A new entry, on a known parent. -/
structure Sprout (rules : BlockRules) (headers : Set Header) (index : IndexLookup)
    (hash : BlockHash) (entry : BlockIndexEntry) : Prop where
  keyed : rules.blockHash entry.header = hash
  given : entry.header ∈ headers
  unmarked : entry.status ≠ .invalid
  unpruned : entry.status ≠ .pruned
  parent : ∃ parent, index entry.header.prevBlockhash = some parent ∧
    parent.status ≠ .invalid ∧ entry.height = parent.height + 1 ∧
    entry.chainwork = addU256 parent.chainwork (workForBits entry.header.bits)

/-- New entries on parents that are not marked, and all the old ones. -/
structure Grown (rules : BlockRules) (headers : Set Header)
  (before after : IndexLookup) : Prop where
  old : ∀ {hash entry}, before hash = some entry → after hash = some entry
  new : ∀ {hash entry}, after hash = some entry →
    before hash = some entry ∨ before hash = none ∧ Sprout rules headers after hash entry

variable {before : IndexLookup}

/-- A new entry put among those there. -/
theorem Sprout.grown {after : IndexLookup} (sprout : Sprout rules headers before hash entry)
    (absent : before hash = none)
    (index : ∀ other, after other = if hash = other then some entry else before other) :
    Grown rules headers before after := by
  have old : ∀ {other found}, before other = some found → after other = some found := by
    intro other found earlier
    rw [index, if_neg]
    · exact earlier
    · rintro rfl
      rw [absent] at earlier
      cases earlier
  refine ⟨old, fun {other found} now => ?_⟩
  rw [index] at now
  split at now
  next same =>
    subst same
    cases now
    obtain ⟨parent, known, rest⟩ := sprout.parent
    exact .inr ⟨absent, { sprout with parent := ⟨parent, old known, rest⟩ }⟩
  next => exact .inl now

theorem Tree.grown {after : IndexLookup} (tree : Tree rules genesis headers before)
    (hashed : Hashed rules genesis headers) (grown : Grown rules headers before after) :
    Tree rules genesis headers after where
  keyed found := by
    rcases grown.new found with known | ⟨_, sprout⟩
    · exact tree.keyed known
    · exact sprout.keyed
  given found := by
    rcases grown.new found with known | ⟨_, sprout⟩
    · exact tree.given known
    · exact sprout.given
  unpruned found := by
    rcases grown.new found with known | ⟨_, sprout⟩
    · exact tree.unpruned known
    · exact sprout.unpruned
  linked found := by
    rcases grown.new found with known | ⟨_, sprout⟩
    · refine (tree.linked known).imp_right ?_
      rintro ⟨parent, knownParent, rest⟩
      exact ⟨parent, grown.old knownParent, rest⟩
    · obtain ⟨parent, knownParent, _, height, work⟩ := sprout.parent
      exact .inr ⟨parent, knownParent, height, work⟩
  clean {hash entry parent} found foundParent marked := by
    rcases grown.new found with known | ⟨_, sprout⟩
    · rcases tree.linked known with ⟨isGenesis, _⟩ | ⟨other, alsoKnown, _⟩
      · rcases grown.new foundParent with knownParent | ⟨_, parentSprout⟩
        · rw [isGenesis, tree.unrooted hashed] at knownParent
          cases knownParent
        · exact absurd (parentSprout.keyed.trans (by rw [isGenesis]))
            (hashed.loose _ parentSprout.given)
      · have same := (grown.old alsoKnown).symm.trans foundParent
        rw [some.injEq] at same
        exact tree.clean known alsoKnown (same ▸ marked)
    · obtain ⟨other, alsoKnown, standing, _⟩ := sprout.parent
      rw [foundParent, some.injEq] at alsoKnown
      exact absurd marked (alsoKnown ▸ standing)
  rooted := by
    obtain ⟨entry, known, standing⟩ := tree.rooted
    exact ⟨entry, grown.old known, standing⟩

theorem walkDown_grown {after : IndexLookup}
    (old : ∀ {hash entry}, before hash = some entry → after hash = some entry) {steps : Nat}
    {reached : BlockHash} (walked : walkDown before steps hash = some reached) :
    walkDown after steps hash = some reached := by
  induction steps generalizing hash with
  | zero => exact walked
  | succ steps ih =>
    obtain ⟨entry, found, further⟩ := bind_eq_some_iff.mp walked
    rw [walkDown, old found]
    exact ih further

theorem Placed.grown {before after : BranchState} (placed : Placed before)
    (old : ∀ {hash entry}, before.index hash = some entry → after.index hash = some entry)
    (tip : after.tip = before.tip) (tipHeight : after.tipHeight = before.tipHeight)
    (rows : ∀ height ≤ before.tipHeight, after.store.getBlockHashByHeight height =
      before.store.getBlockHashByHeight height) : Placed after where
  tip := by
    obtain ⟨entry, found, height⟩ := placed.tip
    exact ⟨entry, by rw [tip]; exact old found, by rw [height, tipHeight]⟩
  rows {height hash} low row := by
    rw [tipHeight] at low ⊢
    rw [rows height low] at row
    rw [tip]
    exact walkDown_grown old (placed.rows low row)

end Growth

/-! ## Headers -/

section Commit

variable {state : BranchState} {scan : HeaderScan} {after : HeaderState}

/-- The state once the headers of a batch are committed. -/
def BranchState.withHeaders (state : BranchState) (after : HeaderState) : BranchState :=
  { state with toHeaderState := after }

/-- The index, the tip and the best header are all right. -/
structure Settled (rules : BlockRules) (genesis : Header) (headers : Set Header)
    (state : BranchState) : Prop where
  arranged : Arranged rules genesis headers state
  crowned : Crowned state

/-- The best header is right after a commit of entries that are not marked. -/
theorem commit_crowned (staged : Staged scan) (crowned : Crowned state)
    (unmarked : ∀ hash entry, scan.batchIndex.lookup hash = some entry → entry.status ≠ .invalid)
    (same : ∀ hash entry old, scan.batchIndex.lookup hash = some entry →
      state.index hash = some old → entry.chainwork = old.chainwork)
    (ran : commitAcceptedHeaders state.toHeaderState scan true = .ok after) :
    Crowned (state.withHeaders after) := by
  obtain ⟨_, best, index, _⟩ := commit_eq staged ran
  have found : ∀ hash, (state.withHeaders after).index hash =
      (scan.batchIndex.lookup hash).or (state.index hash) := fun hash => congrFun index hash
  have raised : state.bestHeader.2 ≤ after.bestHeader.2 := by
    rw [best]
    cases chosen : heavier state.toHeaderState scan with
    | none => exact le_rfl
    | some heaviest =>
      have more := (filter_eq_some_iff.mp chosen).2
      exact (by simpa using more : state.bestHeader.2 < heaviest.2).le
  constructor
  · change ∃ entry, (state.withHeaders after).index after.bestHeader.1 = some entry ∧
      entry.chainwork = after.bestHeader.2 ∧ _
    rw [best]
    cases chosen : heavier state.toHeaderState scan with
    | some heaviest =>
      obtain ⟨entry, among, work⟩ := staged.best _ (filter_eq_some_iff.mp chosen).1
      exact ⟨entry, by rw [found, getD_some, among]; rfl, work, unmarked _ _ among⟩
    | none =>
      obtain ⟨old, known, work, standing⟩ := crowned.best
      rw [getD_none, found]
      cases again : scan.batchIndex.lookup state.bestHeader.1 with
      | none => exact ⟨old, known, work, standing⟩
      | some entry =>
        exact ⟨entry, rfl, (same _ _ _ again known).trans work, unmarked _ _ again⟩
  · intro hash entry known standing
    rw [found, or_eq_some_iff] at known
    obtain among | ⟨-, known⟩ := known
    · obtain ⟨top, isTop, bound⟩ := staged.heaviest _ _ among
      refine bound.trans ?_
      change top.2 ≤ after.bestHeader.2
      cases chosen : heavier state.toHeaderState scan with
      | some heaviest =>
        have isHeaviest := (filter_eq_some_iff.mp chosen).1
        rw [isTop, some.injEq] at isHeaviest
        rw [best, chosen, isHeaviest]
        exact le_rfl
      | none =>
        refine le_trans ?_ raised
        by_contra more
        rw [heavier, isTop, filter_eq_none_iff] at chosen
        exact chosen top rfl (by simpa using more)
    · exact (crowned.heaviest known standing).trans raised

theorem commit_grown_sound (sound : Arranged rules genesis headers state)
    (hashed : Hashed rules genesis headers) (staged : Staged scan)
    (grown : Grown rules headers state.index (scan.lookup state.store))
    (ran : commitAcceptedHeaders state.toHeaderState scan true = .ok after) :
    Arranged rules genesis headers (state.withHeaders after) := by
  obtain ⟨tipHeight, _, index, _⟩ := commit_eq staged ran
  have same : (state.withHeaders after).index = scan.lookup state.store := index
  refine ⟨same ▸ sound.tree.grown hashed grown,
    sound.placed.grown ?_ rfl tipHeight fun height low =>
    commit_low staged ran low⟩
  intro hash entry found
  rw [same]
  exact grown.old found

/-- The header, if it is new and passes the checks, has no marked parent. -/
def HeaderCall.Stands (rules : BlockRules) (state : BranchState) (call : HeaderCall)
    (header : Header) : Prop :=
  state.index (rules.blockHash header) = none →
    ∀ parent, state.index header.prevBlockhash = some parent →
      Passes rules.toHeaderRules state.store call.now header parent → parent.status ≠ .invalid

/-- A batch of headers, none of those it adds on a marked parent. -/
theorem headers_sound (sound : Arranged rules genesis headers state)
    (hashed : Hashed rules genesis headers) {call : HeaderCall} {after : BranchState}
    (run : state.withHeaders (call.run rules.toHeaderRules state.toHeaderState) = after)
    (given : ∀ header ∈ call.given, header ∈ headers)
    (stands : ∀ header ∈ call.given, (after.index (rules.blockHash header)).isSome →
      call.Stands rules state header) : Keeps rules genesis headers state after := by
  subst run
  have distinct : Set.InjOn rules.blockHash {header | header ∈ call.given} :=
    hashed.distinct.mono given
  rcases call.ran rules.toHeaderRules state.toHeaderState distinct with
    same | ⟨scan, scanned, ran⟩
  · rw [same]
    exact ⟨sound, id⟩
  · have fresh : ∀ hash entry, scan.batchIndex.lookup hash = some entry → state.index hash = none :=
      scanned.fresh
    have bare : ∀ hash entry, scan.batchIndex.lookup hash = some entry →
        entry.status = .headerOnly := by
      intro hash entry among
      obtain ⟨_, _, _, _, rfl, _, _⟩ := scanned.entries hash entry among
      rfl
    obtain ⟨-, -, added, -⟩ := commit_eq scanned.toStaged ran
    have grown : Grown rules headers state.index (scan.lookup state.store) := by
      constructor
      · exact fun found => scanned.lookup_store found
      · intro hash entry found
        have isAdded := Option.isSome_of_eq_some ((congrFun added hash).trans found)
        rw [← scanned.lookup_comm, or_eq_some_iff] at found
        obtain known | ⟨known, found⟩ := found
        · exact .inl known
        · obtain ⟨header, member, parent, keyed, rfl, knownParent, passed⟩ :=
            scanned.entries hash entry found
          refine .inr ⟨known, keyed, given header member, by simp [headerEntry],
            by simp [headerEntry], parent, knownParent, ?_, rfl, rfl⟩
          rw [← scanned.lookup_comm, or_eq_some_iff] at knownParent
          obtain stored | ⟨-, staged⟩ := knownParent
          · exact stands header member (keyed ▸ isAdded) (keyed ▸ known) parent stored passed
          · simp [bare _ _ staged]
    refine ⟨commit_grown_sound sound hashed scanned.toStaged grown ran,
      fun crowned => commit_crowned scanned.toStaged crowned
        (fun hash entry among => by simp [bare hash entry among])
        (fun hash entry old among known => ?_) ran⟩
    rw [fresh hash entry among] at known
    cases known

end Commit

/-! ## The operator's calls -/

section Operator

variable (surroundings : Surroundings) {state : BranchState}
  (sound : Arranged rules genesis headers state) (hashed : Hashed rules genesis headers)

include sound in
theorem recalculate_sound {scan : IndexScan} :
    Settled rules genesis headers (recalculateBestHeader scan state) := by
  obtain ⟨entry, found, standing⟩ := sound.tree.rooted
  refine ⟨⟨?_, recalculate_placed scan sound.placed⟩, recalculate_crowned found standing⟩
  rw [recalculate_index]
  exact sound.tree

include sound hashed

/-- Leaving a block for its parent. -/
theorem truncate_sound {marked : BlockIndexEntry} (found : state.index hash = some marked)
    (same : SameBlock entry marked) :
    Keeps rules genesis headers state (truncateToParent rules surroundings hash entry state).1 := by
  rw [truncateToParent]
  split
  next contains =>
    cases known : state.index entry.header.prevBlockhash with
    | none => exact ⟨sound, id⟩
    | some parent =>
      have keyed : state.index (rules.blockHash parent.header) = some parent := by
        rw [sound.tree.keyed known, known]
      refine reorgTo_sound surroundings sound hashed keyed
        (.inr fun tipEntry forkEntry foundTip forked => ?_)
      rw [← same.height] at contains
      rw [← same.header] at known
      exact findFork_parent sound hashed found contains known foundTip forked
  next => exact ⟨sound, id⟩

/-- Marking a branch and leaving it. -/
theorem invalidate_sound (hash : BlockHash) :
    Keeps rules genesis headers state (invalidateBlock rules surroundings hash state).1 := by
  rw [invalidateBlock]
  cases found : state.index hash with
  | none => exact ⟨sound, id⟩
  | some entry =>
    dsimp only
    split
    · exact ⟨sound, id⟩
    next high =>
      have other : hash ≠ rules.blockHash genesis := by
        rcases sound.tree.linked found with ⟨_, bottom⟩ | ⟨parent, known, _⟩
        · exact absurd bottom high
        · rw [← sound.tree.keyed found]
          exact sound.tree.not_genesis hashed (sound.tree.given found) known
      have marked := mark_sound sound hashed found other surroundings.scan
      have markedCrowned := fun crowned : Crowned state =>
        mark_crowned sound.tree hashed surroundings.scan found other (crowned.but hash)
      obtain ⟨markedEntry, foundMarked, same⟩ :=
        (mark_regraded sound.tree surroundings.scan hash).forth found
      obtain ⟨truncated, truncatedCrowned⟩ :=
        truncate_sound surroundings marked hashed foundMarked same
      obtain ⟨activated, activatedCrowned⟩ := activateBestChain_sound surroundings truncated hashed
      split
      · exact ⟨truncated, fun crowned => truncatedCrowned (markedCrowned crowned)⟩
      · split
        · exact ⟨activated, fun crowned =>
            activatedCrowned (truncatedCrowned (markedCrowned crowned))⟩
        · exact ⟨(recalculate_sound activated).arranged, fun _ =>
            (recalculate_sound activated).crowned⟩

/-- Taking the marks back from a branch. The best header is looked for again if the way to the
best chain is free then. -/
theorem reconsider_sound {hash : BlockHash} :
    Arranged rules genesis headers (reconsiderBlock rules surroundings hash state).1 ∧
      (Crowned state → (state.index hash ≠ none → canActivate rules surroundings
        (clearSubtreeInvalid surroundings.scan hash state) = true) →
      Crowned (reconsiderBlock rules surroundings hash state).1) := by
  rw [reconsiderBlock]
  cases found : state.index hash with
  | none => exact ⟨sound, fun crowned _ => crowned⟩
  | some entry =>
    have cleared : Arranged rules genesis headers
        (clearSubtreeInvalid surroundings.scan hash state) :=
      ⟨clear_tree sound.tree hashed surroundings.scan, clear_placed surroundings.scan sound.placed⟩
    have activated := activateBestChain_sound surroundings cleared hashed
    dsimp only
    split
    next error failed =>
      refine ⟨activated.1, fun _ free => ?_⟩
      rw [activateBestChain_succeeds cleared hashed (free (by simp))] at failed
      cases failed
    next =>
      exact ⟨(recalculate_sound activated.1).arranged, fun _ _ =>
        (recalculate_sound activated.1).crowned⟩

end Operator

/-! ## Blocks -/

section Targets

variable {surroundings : Surroundings} {state : BranchState}
  (tree : Tree rules genesis headers state.index)

/-- A known block that is not marked. -/
def Standing (rules : BlockRules) (state : BranchState) (entry : BlockIndexEntry) : Prop :=
  state.index (rules.blockHash entry.header) = some entry ∧ entry.status ≠ .invalid

include tree

theorem standing_of_hasData (found : state.index hash = some entry)
    (data : BlockStatus.hasData entry.status = true) :
    Standing rules state entry :=
  ⟨by rw [tree.keyed found, found], unmarked_of_hasData data⟩

variable {top tipEntry : BlockIndexEntry}

theorem storedPrefix_standing {path : List BlockHash}
    (chosen : storedPrefix state.index path = some top) : Standing rules state top := by
  induction path generalizing top with
  | nil => simp [storedPrefix] at chosen
  | cons hash rest ih =>
    rw [storedPrefix, bind_eq_some_iff] at chosen
    obtain ⟨entry, found, further⟩ := chosen
    split at further
    next data =>
      obtain later | ⟨-, same⟩ := or_eq_some_iff.mp further
      · exact ih later
      · exact some.inj same ▸ standing_of_hasData tree found data
    next => cases further

theorem bestHeaderStoredPrefix_standing
    (ran : bestHeaderStoredPrefix rules state tipEntry = .ok (some top)) :
    Standing rules state top := by
  rw [bestHeaderStoredPrefix] at ran
  cases found : state.index state.bestHeader.1 with
  | none => simp [found] at ran
  | some best =>
    simp only [found] at ran
    split at ran
    · cases ran
    · cases forked : findFork rules state tipEntry best with
      | error error => simp [forked, bind, Except.bind] at ran
      | ok fork =>
        cases collected : pathFrom state (rules.blockHash fork.header) (best.height + 1)
            (rules.blockHash best.header) with
        | error error => simp [forked, collected, bind, Except.bind] at ran
        | ok path =>
          simp only [forked, collected, bind, Except.bind, pure, Except.pure,
            Except.ok.injEq] at ran
          exact storedPrefix_standing tree ran

theorem betterOf_standing {best : Option BlockIndexEntry}
    (standing : ∀ entry, best = some entry → Standing rules state entry) {hash : BlockHash} :
    ∀ entry, betterOf rules surroundings state best hash = some entry →
      Standing rules state entry := by
  intro entry chosen
  rw [betterOf] at chosen
  cases found : (state.index hash).filter fun entry => BlockStatus.hasData entry.status with
  | none =>
    simp only [found] at chosen
    exact standing entry chosen
  | some arrived =>
    obtain ⟨known, data⟩ := filter_eq_some_iff.mp found
    have arrivedStanding := standing_of_hasData tree known data
    simp only [found] at chosen
    cases best with
    | none =>
      cases chosen
      exact arrivedStanding
    | some other =>
      dsimp only at chosen
      split at chosen
      · cases chosen
        exact arrivedStanding
      · exact standing entry chosen

/-- The block to activate is known and not marked, and so is the fork below it known. -/
theorem activationTarget_standing {target fork : BlockIndexEntry}
    (ran : activationTarget rules surroundings state tipEntry = .ok (some (target, fork))) :
    Standing rules state target ∧ state.index (rules.blockHash fork.header) = some fork := by
  rw [activationTarget] at ran
  cases stored : bestHeaderStoredPrefix rules state tipEntry with
  | error error => simp [stored, bind, Except.bind] at ran
  | ok best =>
    have chosen : ∀ (arrived : List BlockHash) (best : Option BlockIndexEntry),
        (∀ entry, best = some entry → Standing rules state entry) →
        ∀ entry, arrived.foldl (betterOf rules surroundings state) best = some entry →
          Standing rules state entry := by
      intro arrived
      induction arrived with
      | nil => exact fun best standing => standing
      | cons hash rest ih =>
        exact fun best standing => ih _ (betterOf_standing tree standing)
    have first : ∀ entry, best = some entry → Standing rules state entry := by
      rintro entry rfl
      exact bestHeaderStoredPrefix_standing tree stored
    simp only [stored, bind, Except.bind] at ran
    cases picked : surroundings.newlyConnectable.foldl (betterOf rules surroundings state) best with
    | none => simp [picked, pure, Except.pure] at ran
    | some entry =>
      simp only [picked] at ran
      split at ran
      · cases ran
      · cases forked : findFork rules state tipEntry entry with
        | error error => simp [forked] at ran
        | ok forkEntry =>
          simp only [forked, pure, Except.pure, Except.ok.injEq, some.injEq, Prod.mk.injEq] at ran
          obtain ⟨rfl, rfl⟩ := ran
          exact ⟨chosen _ _ first _ picked, findFork_known tree forked⟩

end Targets

section Blocks

variable (surroundings : Surroundings) {state : BranchState}
  (sound : Arranged rules genesis headers state) (hashed : Hashed rules genesis headers)

/-- The index holds an entry of the block, not marked, at its height. -/
structure Indexed (rules : BlockRules) (state : BranchState) (block : Block)
    (parent : BlockIndexEntry) : Prop where
  entry : ∃ entry, state.index (rules.blockHash block.header) = some entry ∧
    entry.header = block.header ∧ entry.height = parent.height + 1 ∧ entry.status ≠ .invalid
  known : state.index block.header.prevBlockhash = some parent
  standing : parent.status ≠ .invalid

include sound hashed

omit hashed in
/-- A best header that is raised to a block, none but that block being heavier than it. -/
theorem updateBestHeader_sound (height : Nat) (found : state.index hash = some entry)
    (unmarked : entry.status ≠ .invalid) :
    Arranged rules genesis headers (state.updateBestHeader hash entry.chainwork height) ∧
      (CrownedBut state hash →
        Crowned (state.updateBestHeader hash entry.chainwork height)) := by
  have bound : CrownedBut state hash → ∀ {other otherEntry}, state.index other = some otherEntry →
      otherEntry.status ≠ .invalid →
      otherEntry.chainwork ≤ state.bestHeader.2 ∨ otherEntry.chainwork = entry.chainwork := by
    intro crowned other otherEntry known standing
    by_cases same : other = hash
    · subst same
      rw [found, some.injEq] at known
      exact .inr (by rw [known])
    · exact .inl (crowned.heaviest same known standing)
  rw [BranchState.updateBestHeader]
  split
  next more =>
    refine ⟨⟨sound.tree, ⟨sound.placed.tip, sound.placed.rows⟩⟩, fun crowned =>
      ⟨⟨entry, found, rfl, unmarked⟩, ?_⟩⟩
    intro other otherEntry known standing
    rcases bound crowned known standing with less | same
    · exact less.trans more.le
    · exact same.le
  next notMore =>
    refine ⟨sound, fun crowned => ⟨crowned.best, ?_⟩⟩
    intro other otherEntry known standing
    rcases bound crowned known standing with less | same
    · exact less
    · rw [same]
      exact not_lt.mp notMore

variable {block : Block} {parent : BlockIndexEntry} {place : Nat × Nat}

/-- A bare header of the block that is known already hangs on the same parent. -/
theorem known_entry (given : block.header ∈ headers)
    (found : state.index (rules.blockHash block.header) = some entry)
    (known : state.index block.header.prevBlockhash = some parent) :
    entry.header = block.header ∧ entry.height = parent.height + 1 ∧
      entry.chainwork = addU256 parent.chainwork (workForBits block.header.bits) := by
  have header : entry.header = block.header :=
    hashed.distinct (sound.tree.given found) given (sound.tree.keyed found)
  rw [← header] at known ⊢
  exact ⟨rfl, sound.tree.child hashed found known⟩

/-- Connecting the block comes to a verdict on it, good or bad. -/
def Decides (surroundings : Surroundings) (hash : BlockHash) : Prop :=
  surroundings.connects hash = .connected ∨ surroundings.connects hash = .verdict

/-- Connecting a block that is in the index, after a move to its parent. The best header is right
afterwards if it was before the move, or if all but the block are lighter and there is a verdict
on it. -/
theorem connectNew_sound (indexed : Indexed rules state block parent)
    (given : block.header ∈ headers) {current : BranchState} (moved : Moved state current)
    (onParent : current.tip = block.header.prevBlockhash) :
    Arranged rules genesis headers
        (connectNew rules surroundings block parent place state current).1 ∧
      (CrownedBut state (rules.blockHash block.header) → Crowned state ∨
          requireConnectedParent current block.header.prevBlockhash = true ∧
            Decides surroundings (rules.blockHash block.header) →
        Crowned (connectNew rules surroundings block parent place state current).1) := by
  obtain ⟨entry, found, header, height, standing⟩ := indexed.entry
  rw [connectNew]
  split
  · split
    · obtain ⟨now, foundNow, same⟩ := moved.kept.forth found
      obtain ⟨parentNow, foundParent, sameParent⟩ := moved.kept.forth indexed.known
      have arranged := sound.moved moved
      have nowStanding : now.status ≠ .invalid := by rwa [Ne, ← moved.kept.marks found foundNow]
      obtain ⟨connected, _⟩ := connect_moved arranged.tree hashed arranged.placed
        (storedEntry block parent place) foundNow nowStanding (same.header.trans header).symm
        (same.height.trans height).symm onParent.symm (onParent ▸ foundParent) sameParent.chainwork
      have whole := moved.trans connected
      obtain ⟨last, foundLast, sameLast⟩ := whole.kept.forth found
      have work : (storedEntry block parent place).chainwork = last.chainwork := by
        obtain ⟨_, _, sum⟩ := known_entry sound hashed given found indexed.known
        rw [sameLast.chainwork, sum]
        rfl
      have lastStanding : last.status ≠ .invalid := by
        rwa [Ne, ← whole.kept.marks found foundLast]
      rw [work]
      have raised := updateBestHeader_sound (sound.moved whole)
        (storedEntry block parent place).height foundLast lastStanding
      exact ⟨raised.1, fun crowned _ => raised.2 (crowned.moved whole)⟩
    · have other := sound.tree.not_genesis hashed given indexed.known
      exact ⟨mark_sound sound hashed found other _, fun crowned _ =>
        mark_crowned sound.tree hashed _ found other crowned⟩
    next notConnected noVerdict =>
      exact ⟨sound, fun _ settles => settles.elim id fun decided =>
        (decided.2.elim notConnected noVerdict).elim⟩
  next unconnected =>
    exact ⟨sound, fun _ settles => settles.elim id fun decided => absurd decided.1 unconnected⟩

/-- A block on top of the tip. Only one that stays in the index as a bare header may be heavier
than the best header. -/
theorem extendTip_sound (given : block.header ∈ headers)
    (known : state.index block.header.prevBlockhash = some parent)
    (standing : parent.status ≠ .invalid) (onTip : block.header.prevBlockhash = state.tip)
    (bare : ∀ entry, state.index (rules.blockHash block.header) = some entry →
      entry.status = .headerOnly) :
    Arranged rules genesis headers (extendTip rules surroundings block parent place state).1 ∧
      (Crowned state → (state.index (rules.blockHash block.header) = none →
        parent.status = .valid ∧ Decides surroundings (rules.blockHash block.header)) →
      Crowned (extendTip rules surroundings block parent place state).1) := by
  rw [extendTip]
  cases found : state.index (rules.blockHash block.header) with
  | some entry =>
    obtain ⟨header, height, _⟩ := known_entry sound hashed given found known
    have indexed : Indexed rules state block parent :=
      ⟨⟨entry, found, header, height, by simp [bare entry found]⟩, known, standing⟩
    obtain ⟨arranged, ended⟩ := connectNew_sound surroundings sound hashed indexed given
      ⟨.refl _, rfl, sound.placed⟩ onTip.symm
    exact ⟨arranged, fun crowned _ => ended (crowned.but _) (.inl crowned)⟩
  | none =>
    dsimp only
    generalize written : state.write { blockIndexPuts :=
      [(rules.blockHash block.header, headerEntry block.header parent)] } = next
    have index : ∀ hash, next.index hash =
        if rules.blockHash block.header = hash then some (headerEntry block.header parent)
        else state.index hash := by
      intro hash
      rw [← written, index_write]
      by_cases same : rules.blockHash block.header = hash <;> simp [lastPut, same]
    have sprout : Sprout rules headers state.index _ (headerEntry block.header parent) :=
      ⟨rfl, given, by simp [headerEntry], by simp [headerEntry], parent, known, standing, rfl, rfl⟩
    have grown := sprout.grown found index
    have self : next.index (rules.blockHash block.header) =
      some (headerEntry block.header parent) := by
      rw [index, if_pos rfl]
    have arranged : Arranged rules genesis headers next := by
      refine ⟨sound.tree.grown hashed grown, ?_⟩
      subst written
      exact sound.placed.grown grown.old rfl rfl fun height _ => write_rows
    have spared : Crowned state → CrownedBut next (rules.blockHash block.header) := by
      intro crowned
      subst written
      constructor
      · obtain ⟨entry, earlier, work, unmarked⟩ := crowned.best
        exact ⟨entry, grown.old earlier, work, unmarked⟩
      · intro hash entry different now unmarked
        rw [index, if_neg different.symm] at now
        exact crowned.heaviest now unmarked
    have indexed : Indexed rules next block parent :=
      ⟨⟨_, self, rfl, rfl, by simp [headerEntry]⟩, grown.old known, standing⟩
    have tip : next.tip = block.header.prevBlockhash := by
      subst written
      exact onTip.symm
    obtain ⟨after, ended⟩ := connectNew_sound surroundings arranged hashed indexed given
      ⟨.refl _, rfl, arranged.placed⟩ tip
    refine ⟨after, fun crowned allowed => ended (spared crowned) (.inr ?_)⟩
    obtain ⟨valid, decided⟩ := allowed rfl
    exact ⟨by simp [requireConnectedParent, grown.old known, valid], decided⟩

/-- Activating the branch a stored block completes. -/
theorem activateStored_sound {target forkEntry : BlockIndexEntry}
    (given : block.header ∈ headers) (indexed : Indexed rules state block parent)
    (wanted : Standing rules state target)
    (fork : state.index (rules.blockHash forkEntry.header) = some forkEntry) :
    Keeps rules genesis headers state
      (activateStored rules surroundings block parent place target forkEntry state).1 := by
  rw [activateStored]
  dsimp only
  split
  · obtain ⟨arranged, stillCrowned⟩ := reorgTo_sound surroundings sound hashed wanted.1
      (.inl wanted.2)
    have spec := reorgTo_cases surroundings sound hashed wanted.1 (.inl wanted.2)
    cases ended : (reorgTo rules surroundings target state).2 with
    | error failure => exact ⟨arranged, stillCrowned⟩
    | ok _ =>
      rw [ended] at spec
      obtain ⟨entry, found, same⟩ := spec.kept.forth wanted.1
      have standing : entry.status ≠ .invalid := by
        rw [Ne, ← spec.kept.marks wanted.1 found]
        exact wanted.2
      rw [← same.chainwork]
      have raised := updateBestHeader_sound arranged target.height found standing
      exact ⟨raised.1, fun crowned => raised.2 ((stillCrowned crowned).but _)⟩
  · cases disconnected : performReorg rules surroundings state forkEntry with
    | error error => exact ⟨sound, id⟩
    | ok lower =>
      obtain ⟨moved, tip⟩ := performReorg_moved sound.tree hashed sound.placed fork disconnected
      have soundLower := sound.moved moved
      obtain ⟨parentNow, foundParent, _⟩ := moved.kept.forth indexed.known
      have standing : parentNow.status ≠ .invalid := by
        rw [Ne, ← moved.kept.marks indexed.known foundParent]
        exact indexed.standing
      have spec := reconnect_moved surroundings soundLower.tree hashed soundLower.placed parent
        (.inr ⟨parentNow, foundParent, standing⟩)
      rw [← tip]
      dsimp only
      cases ran : reconnect surroundings lower.tip parent block.header.prevBlockhash lower with
      | error failure =>
        rw [ran] at spec
        exact abortReorg_sound surroundings sound hashed fun bad named =>
          moved.known_before (spec bad named)
      | ok reconnected =>
        rw [ran] at spec
        obtain ⟨arranged, ended⟩ := connectNew_sound surroundings sound hashed indexed given
          (moved.trans spec.1) spec.2
        exact ⟨arranged, fun crowned => ended (crowned.but _) (.inl crowned)⟩

/-- A block on another branch is stored and its branch activated. -/
theorem acceptSide_sound (given : block.header ∈ headers)
    (known : state.index block.header.prevBlockhash = some parent)
    (standing : parent.status ≠ .invalid)
    (bare : ∀ entry, state.index (rules.blockHash block.header) = some entry →
      entry.status = .headerOnly) :
    Keeps rules genesis headers state
      (acceptSide rules surroundings block parent place state).1 := by
  rw [acceptSide]
  generalize isStaged : ({ puts := _, batchIndex := _, best := _, lastCheckpoint := none } :
    HeaderScan) = scan
  have batch : ∀ hash, scan.batchIndex.lookup hash =
      if rules.blockHash block.header = hash then some (storedEntry block parent place)
      else none := by
    intro hash
    rw [← isStaged, lookup_insert, Finmap.lookup_empty]
  have chosen : scan.best =
      some (rules.blockHash block.header, (storedEntry block parent place).chainwork) := by
    rw [← isStaged]
  have staged : Staged scan := by
    constructor
    · intro hash
      rw [batch, ← isStaged]
      rfl
    · intro best isBest
      rw [chosen, some.injEq] at isBest
      subst isBest
      exact ⟨_, by rw [batch, if_pos rfl], rfl⟩
    · intro hash entry among
      rw [batch, ite_none_right_eq_some, some.injEq] at among
      exact ⟨_, chosen, among.2 ▸ le_rfl⟩
  have inBatch : ∀ {hash entry}, scan.batchIndex.lookup hash = some entry →
      hash = rules.blockHash block.header ∧ entry = storedEntry block parent place := by
    intro hash entry among
    rw [batch, ite_none_right_eq_some, some.injEq] at among
    exact ⟨among.1.symm, among.2.symm⟩
  obtain ⟨after, ran⟩ := commit_writable state.toHeaderState scan
  obtain ⟨tipHeight, _, index, _⟩ := commit_eq staged ran
  have stored : ∀ hash, (state.withHeaders after).index hash =
      (scan.batchIndex.lookup hash).or (state.index hash) := fun hash => congrFun index hash
  have self : (state.withHeaders after).index (rules.blockHash block.header) =
      some (storedEntry block parent place) := by
    rw [stored, batch, if_pos rfl]
    rfl
  have elsewhere : rules.blockHash block.header ≠ block.header.prevBlockhash := by
    intro same
    have height := (known_entry sound hashed given (same ▸ known) known).2.1
    omega
  have parentStored : (state.withHeaders after).index block.header.prevBlockhash = some parent := by
    rw [stored, batch, if_neg elsewhere, none_or, known]
  have sameWork : ∀ hash entry old, scan.batchIndex.lookup hash = some entry →
      state.index hash = some old → entry.chainwork = old.chainwork := by
    intro hash entry old among found
    obtain ⟨rfl, rfl⟩ := inBatch among
    exact (known_entry sound hashed given found known).2.2.symm
  have arranged : Arranged rules genesis headers (state.withHeaders after) := by
    cases found : state.index (rules.blockHash block.header) with
    | none =>
      have sprout : Sprout rules headers state.index (rules.blockHash block.header)
          (storedEntry block parent place) :=
        ⟨rfl, given, by simp [storedEntry], by simp [storedEntry], parent, known, standing, rfl,
          rfl⟩
      refine commit_grown_sound sound hashed staged (sprout.grown found fun hash => ?_) ran
      rw [← index]
      change (state.withHeaders after).index hash = _
      rw [stored, batch]
      split <;> rfl
    | some old =>
      obtain ⟨header, height, work⟩ := known_entry sound hashed given found known
      have kept : Kept state.index (state.withHeaders after).index := by
        refine ⟨regraded_of_puts [(rules.blockHash block.header, storedEntry block parent place)]
          (fun hash => ?_) (fun hash entry member => ?_), ?_⟩
        · rw [stored, batch]
          rfl
        · obtain ⟨rfl, rfl⟩ := Prod.mk.inj (List.mem_singleton.mp member)
          exact ⟨old, found, header.symm, height.symm, work.symm, fun pruned => by cases pruned⟩
        · intro hash entry other before now
          by_cases same : rules.blockHash block.header = hash
          · subst same
            obtain rfl := some.inj (found.symm.trans before)
            obtain rfl := some.inj (self.symm.trans now)
            simp [bare _ found, storedEntry]
          · rw [stored, batch, if_neg same, none_or, before, some.injEq] at now
            rw [now]
      exact ⟨sound.tree.of_kept kept, sound.placed.regraded kept.toRegraded rfl tipHeight
        fun height low => commit_low staged ran low⟩
  have stillCrowned : Crowned state → Crowned (state.withHeaders after) := by
    intro crowned
    refine commit_crowned staged crowned (fun hash entry among => ?_) sameWork ran
    obtain ⟨_, rfl⟩ := inBatch among
    simp [storedEntry]
  have indexed : Indexed rules (state.withHeaders after) block parent :=
    ⟨⟨_, self, rfl, rfl, by simp [storedEntry]⟩, parentStored, standing⟩
  rw [ran]
  dsimp only
  rw [← BranchState.withHeaders]
  cases foundTip : (state.withHeaders after).index state.tip with
  | none => exact ⟨arranged, stillCrowned⟩
  | some tipEntry =>
    dsimp only
    cases target : activationTarget rules surroundings (state.withHeaders after) tipEntry with
    | error error => exact ⟨arranged, stillCrowned⟩
    | ok chosenTarget =>
      cases chosenTarget with
      | none => exact ⟨arranged, stillCrowned⟩
      | some pair =>
        obtain ⟨wanted, fork⟩ := activationTarget_standing arranged.tree target
        obtain ⟨moved, keeps⟩ :=
          activateStored_sound surroundings arranged hashed given indexed wanted fork
        exact ⟨moved, fun crowned => keeps (stillCrowned crowned)⟩

/-- One block. -/
theorem acceptBlock_sound (given : block.header ∈ headers) :
    Arranged rules genesis headers (acceptBlock rules surroundings block state).1 ∧
      (Crowned state → (state.index (rules.blockHash block.header) = none →
        block.header.prevBlockhash = state.tip → ∀ tip, state.index state.tip = some tip →
        tip.status ≠ .invalid →
          tip.status = .valid ∧ Decides surroundings (rules.blockHash block.header)) →
      Crowned (acceptBlock rules surroundings block state).1) := by
  rw [acceptBlock]
  split
  · exact ⟨sound, fun crowned _ => crowned⟩
  next fresh =>
    have bare : ∀ entry, state.index (rules.blockHash block.header) = some entry →
        entry.status = .headerOnly := by
      intro entry found
      simpa [found] using fresh
    cases known : state.index block.header.prevBlockhash with
    | none => exact ⟨sound, fun crowned _ => crowned⟩
    | some parent =>
      dsimp only
      split
      · exact ⟨sound, fun crowned _ => crowned⟩
      next standing =>
        cases checked : checkIncomingBlock rules surroundings block parent state with
        | error refusal =>
          dsimp only
          split
          next condemned =>
            have other := sound.tree.not_genesis hashed given known
            cases found : state.index (rules.blockHash block.header) with
            | none => simp [found] at condemned
            | some entry =>
              exact ⟨mark_sound sound hashed found other _, fun crowned _ =>
                mark_crowned sound.tree hashed _ found other (crowned.but _)⟩
          next => exact ⟨sound, fun crowned _ => crowned⟩
        | ok passed =>
          dsimp only
          cases placed : surroundings.written with
          | none => exact ⟨sound, fun crowned _ => crowned⟩
          | some place =>
            dsimp only
            split
            next onTip =>
              obtain ⟨arranged, keeps⟩ :=
                extendTip_sound surroundings sound hashed given known standing onTip bare
              exact ⟨arranged, fun crowned allowed => keeps crowned fun new =>
                allowed new onTip parent (onTip ▸ known) standing⟩
            next =>
              obtain ⟨arranged, keeps⟩ :=
                acceptSide_sound surroundings sound hashed given known standing bare
              exact ⟨arranged, fun crowned _ => keeps crowned⟩

end Blocks

/-! ## Runs -/

namespace ChainCall

/-- The headers a call brings, alone or with a block. -/
def given : ChainCall → List Header
  | .headers call => call.given
  | .block _ incoming => [incoming.header]
  | .invalidate _ _ => []
  | .reconsider _ _ => []

/-- No new header that is added has a marked parent. -/
def Stands (rules : BlockRules) (state : BranchState) : ChainCall → Prop
  | .headers call => ∀ header ∈ call.given,
    ((ChainCall.run rules state (.headers call)).index (rules.blockHash header)).isSome →
      call.Stands rules state header
  | _ => True

/-- No new header that passes the checks has a marked parent. There is a verdict on every new block
on the tip, and the tip was connected. The way to the best chain is free once the marks of a
reconsidered branch are taken back. -/
def Allowed (rules : BlockRules) (state : BranchState) : ChainCall → Prop
  | .headers call => ∀ header ∈ call.given, call.Stands rules state header
  | .block surroundings incoming =>
    state.index (rules.blockHash incoming.header) = none →
      incoming.header.prevBlockhash = state.tip → ∀ tip, state.index state.tip = some tip →
      tip.status ≠ .invalid →
        tip.status = .valid ∧ Decides surroundings (rules.blockHash incoming.header)
  | .invalidate _ _ => True
  | .reconsider surroundings hash => state.index hash ≠ none →
    canActivate rules surroundings (clearSubtreeInvalid surroundings.scan hash state) = true

theorem Allowed.stands {state : BranchState} {call : ChainCall}
    (allowed : call.Allowed rules state) : call.Stands rules state := by
  cases call with
  | headers call => exact fun header member _ => allowed header member
  | block | invalidate | reconsider => trivial

end ChainCall

/-- The headers of a run: the genesis block's and those its calls bring. -/
def runHeaders (genesis : Header) (calls : List ChainCall) : Set Header :=
  {header | header = genesis ∨ ∃ call ∈ calls, header ∈ call.given}

/-- One call keeps the index and the tip right, and under its condition the best header. -/
theorem Arranged.run {state : BranchState} (sound : Arranged rules genesis headers state)
    (hashed : Hashed rules genesis headers) {call : ChainCall}
    (given : ∀ header ∈ call.given, header ∈ headers) (stands : call.Stands rules state) :
    Arranged rules genesis headers (call.run rules state) ∧
      (Crowned state → call.Allowed rules state → Crowned (call.run rules state)) := by
  cases call with
  | headers call =>
    obtain ⟨arranged, keeps⟩ := headers_sound sound hashed rfl given stands
    exact ⟨arranged, fun crowned _ => keeps crowned⟩
  | block surroundings incoming =>
    exact acceptBlock_sound surroundings sound hashed (given _ List.mem_cons_self)
  | invalidate surroundings hash =>
    obtain ⟨arranged, keeps⟩ := invalidate_sound surroundings sound hashed hash
    exact ⟨arranged, fun crowned _ => keeps crowned⟩
  | reconsider surroundings hash => exact reconsider_sound surroundings sound hashed

theorem genesis_sound {genesis : Block} (hashed : Hashed rules genesis.header headers)
    {place : Nat × Nat} :
    Settled rules genesis.header headers (genesisState rules genesis place) := by
  have only : ∀ hash, (genesisState rules genesis place).index hash =
      if rules.blockHash genesis.header = hash then
        some ⟨genesis.header, 0, .valid, genesis.txdata.length, place.1, place.2,
          workForBits genesis.header.bits⟩
      else none := by
    intro hash
    simp only [BranchState.index, genesisState, InMemoryStore.getBlockIndex, lookup_insert,
      Finmap.lookup_empty]
  have self := only (rules.blockHash genesis.header)
  rw [if_pos rfl] at self
  have isGenesis : ∀ {hash entry}, (genesisState rules genesis place).index hash = some entry →
      hash = rules.blockHash genesis.header ∧ entry = ⟨genesis.header, 0, .valid,
        genesis.txdata.length, place.1, place.2, workForBits genesis.header.bits⟩ := by
    intro hash entry found
    rw [only, ite_none_right_eq_some, some.injEq] at found
    exact ⟨found.1.symm, found.2.symm⟩
  refine ⟨⟨⟨?_, ?_, ?_, ?_, ?_, ⟨_, self, by simp⟩⟩, ⟨⟨_, self, rfl⟩, ?_⟩⟩, ⟨_, self, rfl, by simp⟩,
    ?_⟩
  · intro hash entry found
    obtain ⟨rfl, rfl⟩ := isGenesis found
    rfl
  · intro hash entry found
    obtain ⟨_, rfl⟩ := isGenesis found
    exact hashed.given
  · intro hash entry found
    obtain ⟨_, rfl⟩ := isGenesis found
    simp
  · intro hash entry found
    obtain ⟨_, rfl⟩ := isGenesis found
    exact .inl ⟨rfl, rfl⟩
  · intro hash entry parent found foundParent marked
    obtain ⟨_, rfl⟩ := isGenesis foundParent
    cases marked
  · intro height hash low row
    obtain rfl : height = 0 := Nat.le_zero.mp low
    rw [← row]
    rfl
  · intro hash entry found standing
    obtain ⟨_, rfl⟩ := isGenesis found
    exact le_rfl

/-- No entry that is not invalid has an invalid ancestor. -/
def NoInvalidAncestor (state : BranchState) : Prop :=
  ∀ hash entry level ancestor ancestorEntry, state.index hash = some entry →
    entry.status ≠ .invalid → ancestorAt (indexView state.index) hash level = some ancestor →
    state.index ancestor = some ancestorEntry → ancestorEntry.status ≠ .invalid

/-- A known block that is not invalid, and none of its ancestors is. -/
def InPlay (state : BranchState) (hash : BlockHash) (entry : BlockIndexEntry) : Prop :=
  state.index hash = some entry ∧ entry.status ≠ .invalid ∧
    ∀ level ancestor ancestorEntry, ancestorAt (indexView state.index) hash level = some ancestor →
      state.index ancestor = some ancestorEntry → ancestorEntry.status ≠ .invalid

/-- The best header is in play, and of those in play none has more work. -/
def BestIsHeaviest (state : BranchState) : Prop :=
  ∃ best, InPlay state state.bestHeader.1 best ∧ best.chainwork = state.bestHeader.2 ∧
    ∀ hash entry, InPlay state hash entry → entry.chainwork ≤ best.chainwork

theorem Settled.out_of_play {state : BranchState} (settled : Settled rules genesis headers state) :
    NoInvalidAncestor state ∧ BestIsHeaviest state := by
  have clean : NoInvalidAncestor state := fun hash entry level ancestor ancestorEntry found standing
    above foundAncestor =>
      settled.arranged.tree.ancestor_unmarked found standing above foundAncestor
  obtain ⟨best, found, work, standing⟩ := settled.crowned.best
  refine ⟨clean, best, ⟨found, standing, fun level ancestor entry => clean _ _ level ancestor entry
    found standing⟩, work, ?_⟩
  rintro hash entry ⟨known, unmarked, _⟩
  rw [work]
  exact settled.crowned.heaviest known unmarked

/-- An invalidated branch stays out of play in every state of a run from the genesis block, if at
no call a new header that passes the checks has an invalid parent, there is a verdict on every
new block on the tip, and the way to the best chain is free for every reconsidered branch. -/
theorem invalid_branches_stay_out (rules : BlockRules) (genesis : Block) (place : Nat × Nat)
    {calls : List ChainCall}
    (hashed : Hashed rules genesis.header (runHeaders genesis.header calls))
    (allowed : Run.EachStep (ChainCall.run rules) (fun state call => call.Allowed rules state)
      (genesisState rules genesis place) calls) :
    Run.Throughout (ChainCall.run rules)
      (fun state => NoInvalidAncestor state ∧ BestIsHeaviest state)
      (genesisState rules genesis place) calls := by
  have whole : Run.Throughout (ChainCall.run rules)
      (Settled rules genesis.header (runHeaders genesis.header calls))
      (genesisState rules genesis place) calls := by
    refine Run.throughout_of_eachStep ?_ (genesis_sound hashed) allowed
    intro state kept call member condition
    obtain ⟨arranged, keeps⟩ := kept.arranged.run hashed
      (fun header given => .inr ⟨call, member, given⟩) condition.stands
    exact ⟨arranged, keeps kept.crowned condition⟩
  exact whole.imp fun state kept => kept.out_of_play

/-! ### A header on an invalid parent -/

/-- Headers on parents that are not marked are allowed. -/
theorem ChainCall.allowed_of_unmarked {state : BranchState} {call : HeaderCall}
    (unmarked : ∀ header ∈ call.given, (state.index header.prevBlockhash).all fun parent =>
      parent.status ≠ .invalid) : (ChainCall.headers call).Allowed rules state := by
  intro header member _ parent known _
  simpa [known] using unmarked header member

/-- There may be a new block on a valid tip if there is a verdict on it. -/
theorem ChainCall.allowed_of_decided {state : BranchState} {surroundings : Surroundings}
    {incoming : Block}
    (valid : (state.index state.tip).all fun tip => tip.status = .valid)
    (decided : Decides surroundings (rules.blockHash incoming.header)) :
    (ChainCall.block surroundings incoming).Allowed rules state := by
  intro _ _ tip known _
  exact ⟨by simpa [known] using valid, decided⟩

/-- Every check passes. -/
def nonceBlockRules : BlockRules :=
  { nonceRules with
    checkBlock := fun _ _ => .ok ()
    checkSignetSolution := fun _ => .ok ()
    medianTimePastOf := fun _ _ => 0
    checkBlockContext := fun _ _ _ => .ok () }

/-- Every block can be read, disconnected and connected. -/
def calm : Surroundings where
  now := 0
  scan := sortedScan
  sequenceIds _ := none
  newlyConnectable := []
  written := some (0, 0)
  disconnects _ := true
  connects _ := .connected

def firstBlock : Block := ⟨forkHeader 0 1, []⟩

/-- Header 2 on the genesis block is accepted and invalidated, and then header 3 on top of it
accepted. -/
def lateHeader : List ChainCall :=
  [.headers (.single 0 true (forkHeader 1 2)), .invalidate calm (Hash256.repeated 2),
    .headers (.single 0 true (forkHeader 2 3))]

/-- The state after these calls. -/
def lateState : BranchState :=
  lateHeader.foldl (ChainCall.run nonceBlockRules) (genesisState nonceBlockRules firstBlock (0, 0))

def forkHeaders : List Header := [forkHeader 0 1, forkHeader 1 2, forkHeader 1 4, forkHeader 2 3]

/-- These headers have hashes of their own. -/
theorem forks_hashed {calls : List ChainCall}
    (all : ∀ call ∈ calls, ∀ header ∈ call.given, header ∈ forkHeaders) :
    Hashed nonceBlockRules firstBlock.header (runHeaders firstBlock.header calls) := by
  have distinct : ∀ left ∈ forkHeaders, ∀ right ∈ forkHeaders, nonceBlockRules.blockHash left =
      nonceBlockRules.blockHash right → left = right := by decide +kernel
  have loose : ∀ header ∈ forkHeaders,
      nonceBlockRules.blockHash header ≠ firstBlock.header.prevBlockhash := by decide +kernel
  have among : ∀ header ∈ runHeaders firstBlock.header calls, header ∈ forkHeaders := by
    rintro header (rfl | ⟨call, member, given⟩)
    · exact List.mem_cons_self
    · exact all call member header given
  exact ⟨fun left isLeft right isRight =>
    distinct left (among left isLeft) right (among right isRight),
    .inl rfl, fun header isHeader => loose header (among header isHeader)⟩

/-- The header of a branch that was invalidated becomes the best one. -/
theorem header_on_invalid_parent :
    Hashed nonceBlockRules firstBlock.header (runHeaders firstBlock.header lateHeader) ∧
      ¬ NoInvalidAncestor lateState ∧ ¬ BestIsHeaviest lateState := by
  have child : (lateState.index (.repeated 3)).map (·.status) = some .headerOnly := by
    decide +kernel
  have parent : (lateState.index (.repeated 2)).map (·.status) = some .invalid := by decide +kernel
  have above : ancestorAt (indexView lateState.index) (.repeated 3) 1 = some (.repeated 2) := by
    decide +kernel
  have best : lateState.bestHeader.1 = Hash256.repeated 3 := by decide +kernel
  obtain ⟨entry, found, bare⟩ := map_eq_some_iff.mp child
  obtain ⟨parentEntry, foundParent, marked⟩ := map_eq_some_iff.mp parent
  refine ⟨forks_hashed (by decide +kernel), ?_, ?_⟩
  · intro clean
    exact clean _ _ _ _ _ found (by simp [bare]) above foundParent marked
  · rintro ⟨heaviest, ⟨_, _, ancestors⟩, _⟩
    rw [best] at ancestors
    exact ancestors _ _ _ above foundParent marked

/-- Block 4 is connected on the genesis block, invalidated, and activated again
when it is reconsidered. Header 3 is then accepted on header 2 beside it. -/
theorem invalid_branches_stay_out_reconsidered :
    Run.Throughout (ChainCall.run nonceBlockRules)
      (fun state => NoInvalidAncestor state ∧ BestIsHeaviest state)
      (genesisState nonceBlockRules firstBlock (0, 0))
      [.headers (.batch 0 true [forkHeader 1 2]), .block calm ⟨forkHeader 1 4, [⟨1, 0, [], []⟩]⟩,
        .invalidate calm (Hash256.repeated 4), .reconsider calm (Hash256.repeated 4),
        .headers (.single 0 true (forkHeader 2 3))] :=
  invalid_branches_stay_out nonceBlockRules firstBlock (0, 0) (forks_hashed (by decide +kernel))
    ⟨ChainCall.allowed_of_unmarked (by decide +kernel),
      ChainCall.allowed_of_decided (by decide +kernel) (.inl (by decide +kernel)), trivial,
      fun _ => by decide +kernel, ChainCall.allowed_of_unmarked (by decide +kernel), trivial⟩

/-! ## The rows of the heights -/

variable {state : BranchState}

/-- Every block has as many ancestors as its height says. -/
theorem Tree.walkDown_known (tree : Tree rules genesis headers index) {steps : Nat}
    (found : index hash = some entry) (low : steps ≤ entry.height) :
    ∃ reached other, walkDown index steps hash = some reached ∧ index reached = some other ∧
      other.height = entry.height - steps := by
  induction steps generalizing hash entry with
  | zero => exact ⟨hash, entry, rfl, found, rfl⟩
  | succ steps ih =>
    obtain ⟨-, bottom⟩ | ⟨parent, known, height, -⟩ := tree.linked found
    · omega
    · obtain ⟨reached, other, walked, foundOther, depth⟩ := ih known (by omega)
      exact ⟨reached, other, by simp [walkDown, found, walked], foundOther, by omega⟩

/-- The row of the height, if there is one, and the walk otherwise. -/
def activeChainHashAtHeightIndexed (state : BranchState) (height : Nat) : Option BlockHash :=
  if state.tipHeight < height then none
  else (state.store.getBlockHashByHeight height).or (activeChainHashAtHeight state height)

/-- What the rows answer about the active chain is what the walk from the tip answers, and there
is a block of the chain at every height up to the tip's. -/
structure RowsExact (state : BranchState) : Prop where
  hashes : ∀ height,
    activeChainHashAtHeightIndexed state height = activeChainHashAtHeight state height
  members : ∀ hash height, activeChainContains state hash height = true ↔
    activeChainHashAtHeight state height = some hash
  blocks : ∀ height ≤ state.tipHeight, ∃ hash entry,
    activeChainHashAtHeight state height = some hash ∧ state.index hash = some entry ∧
      entry.height = height

theorem Arranged.rowsExact (sound : Arranged rules genesis headers state) : RowsExact state where
  hashes height := by
    rw [activeChainHashAtHeightIndexed]
    split_ifs with above
    · rw [activeChainHashAtHeight, if_pos above]
    · cases row : state.store.getBlockHashByHeight height with
      | none => rw [none_or]
      | some hash =>
        rw [some_or, activeChainHashAtHeight, if_neg above, sound.placed.rows (by omega) row]
  members hash height := by
    constructor
    · intro contains
      obtain ⟨low, walked⟩ := walkDown_of_activeChainContains sound contains
      rw [activeChainHashAtHeight, if_neg (by omega), walked]
    · intro active
      have low : height ≤ state.tipHeight := by
        rw [activeChainHashAtHeight] at active
        split_ifs at active
        omega
      simp [activeChainContains, low, active]
  blocks height low := by
    obtain ⟨tip, found, top⟩ := sound.placed.tip
    obtain ⟨hash, entry, walked, known, depth⟩ :=
      sound.tree.walkDown_known found (show state.tipHeight - height ≤ tip.height by omega)
    refine ⟨hash, entry, ?_, known, by omega⟩
    rw [activeChainHashAtHeight, if_neg (by omega), walked]

/-- In every state of a run from the genesis block the rows and the walk agree about the active
chain, if at no call a new header that passes the checks has an invalid parent. -/
theorem active_rows_exact (rules : BlockRules) (genesis : Block) (place : Nat × Nat)
    {calls : List ChainCall}
    (hashed : Hashed rules genesis.header (runHeaders genesis.header calls))
    (stands : Run.EachStep (ChainCall.run rules) (fun state call => call.Stands rules state)
      (genesisState rules genesis place) calls) :
    Run.Throughout (ChainCall.run rules) RowsExact (genesisState rules genesis place) calls := by
  have whole : Run.Throughout (ChainCall.run rules)
      (Arranged rules genesis.header (runHeaders genesis.header calls))
      (genesisState rules genesis place) calls := by
    refine Run.throughout_of_eachStep ?_ (genesis_sound hashed).arranged stands
    intro state kept call member condition
    exact (kept.run hashed (fun header given => .inr ⟨call, member, given⟩) condition).1
  exact whole.imp fun state kept => kept.rowsExact

/-- A header beside the connected block is invalidated, and the block then disconnected. -/
theorem active_rows_exact_invalidated :
    Run.Throughout (ChainCall.run nonceBlockRules) RowsExact
      (genesisState nonceBlockRules firstBlock (0, 0))
      [.headers (.single 0 true (forkHeader 1 2)), .block calm ⟨forkHeader 1 4, [⟨1, 0, [], []⟩]⟩,
        .invalidate calm (Hash256.repeated 2), .invalidate calm (Hash256.repeated 4)] :=
  active_rows_exact nonceBlockRules firstBlock (0, 0) (forks_hashed (by decide +kernel))
    ⟨(ChainCall.allowed_of_unmarked (by decide +kernel)).stands, trivial, trivial, trivial, trivial⟩

end Satd.Chain
