import Satd.Chain.Invalidity

/-!
# Activating a branch

Moving the active chain connects and disconnects blocks. Neither changes a mark: a block is
connected on the way to one that is not marked, and so is not marked itself. What a failed
move leaves is the state before it, with the block that failed marked and its descendants.

A move to the best chain succeeds when every block it leaves and every block it enters can be
read and connected (`activateBestChain_succeeds`).
-/

namespace Satd.Chain

open KeyedMap Lineage Satd.Bitcoin Satd.Storage List Option

theorem unmarked_of_hasData {status : BlockStatus} (data : BlockStatus.hasData status = true) :
    status ≠ .invalid := by
  rintro rfl
  simp [BlockStatus.hasData] at data

/-! ## Walking down -/

theorem walkDown_add (index : IndexLookup) (first second : Nat) (hash : BlockHash) :
    walkDown index (first + second) hash =
      (walkDown index first hash).bind (walkDown index second) := by
  induction first generalizing hash with
  | zero => simp [walkDown]
  | succ first ih =>
    rw [Nat.succ_add, walkDown, walkDown]
    cases index hash with
    | none => rfl
    | some entry => simp [ih]

/-- Blocks one on the other, from just above a block up to the last. -/
def Chained (index : IndexLookup) : BlockHash → List BlockHash → BlockHash → Prop
  | start, [], last => start = last
  | start, hash :: rest, last =>
    (∃ entry, index hash = some entry ∧ entry.header.prevBlockhash = start) ∧
      Chained index hash rest last

variable {start last hash : BlockHash} {path : List BlockHash}
  {entry forkEntry target : BlockIndexEntry} {before after : BranchState}

theorem Chained.append {index : IndexLookup} {middle : BlockHash}
    (chained : Chained index start path middle) (found : index last = some entry)
    (parent : entry.header.prevBlockhash = middle) :
    Chained index start (path ++ [last]) last := by
  induction path generalizing start with
  | nil =>
    rw [Chained] at chained
    exact ⟨⟨entry, found, parent.trans chained.symm⟩, rfl⟩
  | cons hash rest ih => exact ⟨chained.1, ih chained.2⟩

theorem Chained.regraded {before after : IndexLookup} (regraded : Regraded before after)
    (chained : Chained before start path last) :
    Chained after start path last := by
  induction path generalizing start with
  | nil => exact chained
  | cons hash rest ih =>
    obtain ⟨⟨entry, found, parent⟩, more⟩ := chained
    obtain ⟨other, alsoFound, same⟩ := regraded.forth found
    exact ⟨⟨other, alsoFound, by rw [same.header, parent]⟩, ih more⟩

variable {fork : BlockHash}

theorem chained_pathFrom {state : BranchState} {fuel : Nat}
    (ran : pathFrom state fork fuel hash = .ok path) :
    Chained state.index fork path hash := by
  induction fuel generalizing hash path with
  | zero =>
    rw [pathFrom] at ran
    split at ran
    next same =>
      cases ran
      exact same.symm
    next => cases ran
  | succ fuel ih =>
    rw [pathFrom] at ran
    split at ran
    next same =>
      cases ran
      exact same.symm
    next =>
      cases found : state.index hash with
      | none => simp [found] at ran
      | some entry =>
        simp only [found] at ran
        cases below : pathFrom state fork fuel entry.header.prevBlockhash with
        | error error => simp [below, Except.map] at ran
        | ok earlier =>
          simp only [below, Except.map, Except.ok.injEq] at ran
          subst ran
          exact (ih below).append found rfl

section Tree

variable {rules : BlockRules} {genesis : Header} {headers : Set Header} {index : IndexLookup}
  (tree : Tree rules genesis headers index) (hashed : Hashed rules genesis headers)

include tree

/-- On the way to a block that is not marked no block is marked. -/
theorem Chained.unmarked (chained : Chained index start path last) {lastEntry : BlockIndexEntry}
    (found : index last = some lastEntry) (standing : lastEntry.status ≠ .invalid) :
    ∀ hash ∈ path, ∀ entry, index hash = some entry → entry.status ≠ .invalid := by
  induction path generalizing start with
  | nil => simp
  | cons head rest ih =>
    obtain ⟨_, more⟩ := chained
    have later := ih more
    intro hash member entry known
    rcases mem_cons.mp member with rfl | among
    · cases rest with
      | nil =>
        obtain rfl : hash = last := more
        rw [known, Option.some.injEq] at found
        exact found ▸ standing
      | cons next others =>
        obtain ⟨⟨nextEntry, foundNext, parent⟩, _⟩ := more
        intro marked
        rw [← parent] at known
        exact later next mem_cons_self nextEntry foundNext (tree.clean foundNext known marked)
    · exact later hash among entry known

include hashed

/-- The number of steps is the difference of the heights. -/
theorem walkDown_height {steps : Nat} {reached : BlockHash} {other : BlockIndexEntry}
    (found : index hash = some entry) (walked : walkDown index steps hash = some reached)
    (foundOther : index reached = some other) : other.height + steps = entry.height := by
  induction steps generalizing hash entry with
  | zero =>
    obtain rfl : hash = reached := by simpa [walkDown] using walked
    rw [found, Option.some.injEq] at foundOther
    rw [foundOther, add_zero]
  | succ steps ih =>
    simp only [walkDown, found, bind_some] at walked
    rcases tree.linked found with ⟨isGenesis, _⟩ | ⟨parent, known, height, _⟩
    · rw [isGenesis] at walked
      have unrooted := tree.unrooted hashed
      cases steps with
      | zero =>
        obtain rfl : genesis.prevBlockhash = reached := by simpa [walkDown] using walked
        rw [unrooted] at foundOther
        cases foundOther
      | succ steps => simp [walkDown, unrooted] at walked
    · have lower := ih known walked
      omega

end Tree

/-! ## Disconnecting -/

/-- The state a move of the active chain leaves: the same blocks with the same marks, the same
best header, and a tip in its place. -/
structure Moved (before after : BranchState) : Prop where
  kept : Kept before.index after.index
  best : after.bestHeader = before.bestHeader
  placed : Placed after

theorem Moved.trans {first second third : BranchState} (left : Moved first second)
    (right : Moved second third) : Moved first third :=
  ⟨left.kept.trans right.kept, right.best.trans left.best, right.placed⟩

/-- A block whose parent is known after a move was so before it. -/
theorem Moved.known_before (moved : Moved before after)
    (known : ∃ entry parent, after.index hash = some entry ∧
      after.index entry.header.prevBlockhash = some parent) :
    ∃ entry parent, before.index hash = some entry ∧
      before.index entry.header.prevBlockhash = some parent := by
  obtain ⟨entry, parent, found, foundParent⟩ := known
  obtain ⟨first, foundFirst, same⟩ := moved.kept.back found
  obtain ⟨second, foundSecond, _⟩ := moved.kept.back foundParent
  exact ⟨first, second, foundFirst, same.header ▸ foundSecond⟩

theorem CrownedBut.moved {spared : BlockHash} (crowned : CrownedBut before spared)
    (moved : Moved before after) :
    CrownedBut after spared where
  best := by
    obtain ⟨entry, found, work, standing⟩ := crowned.best
    obtain ⟨other, alsoFound, same⟩ := moved.kept.forth found
    refine ⟨other, by rw [moved.best]; exact alsoFound, by rw [same.chainwork, work, moved.best],
      ?_⟩
    rwa [Ne, ← moved.kept.marks found alsoFound]
  heaviest {hash entry} different found standing := by
    obtain ⟨earlier, known, same⟩ := moved.kept.back found
    rw [same.chainwork, moved.best]
    exact crowned.heaviest different known (by rwa [Ne, moved.kept.marks known found])

theorem Crowned.moved (crowned : Crowned before) (moved : Moved before after) : Crowned after where
  best := ((crowned.but before.tip).moved moved).best
  heaviest {hash entry} found standing := by
    obtain ⟨earlier, known, same⟩ := moved.kept.back found
    rw [same.chainwork, moved.best]
    exact crowned.heaviest known (by rwa [Ne, moved.kept.marks known found])

theorem walkDown_of_disconnectTo {surroundings : Surroundings} {state : BranchState} {fuel : Nat}
    {heights : List Nat} (ran : disconnectTo surroundings state fork fuel hash = .ok heights) :
    ∃ steps, walkDown state.index steps hash = some fork := by
  induction fuel generalizing hash heights with
  | zero =>
    rw [disconnectTo] at ran
    split at ran
    next same => exact ⟨0, by rw [same]; rfl⟩
    next => cases ran
  | succ fuel ih =>
    rw [disconnectTo] at ran
    split at ran
    next same => exact ⟨0, by rw [same]; rfl⟩
    next =>
      cases found : state.index hash with
      | none => simp [found] at ran
      | some entry =>
        simp only [found] at ran
        split at ran
        next =>
          cases below : disconnectTo surroundings state fork fuel entry.header.prevBlockhash with
          | error error => simp [below, Except.map] at ran
          | ok earlier =>
            obtain ⟨steps, walked⟩ := ih below
            exact ⟨steps + 1, by simp [walkDown, found, walked]⟩
        next => cases ran

section Moves

variable {rules : BlockRules} {genesis : Header} {headers : Set Header}
  {surroundings : Surroundings} {state : BranchState}
  (tree : Tree rules genesis headers state.index) (hashed : Hashed rules genesis headers)
  (placed : Placed state)

include tree hashed placed

/-- Disconnecting down to a known block. -/
theorem performReorg_moved (known : state.index (rules.blockHash forkEntry.header) = some forkEntry)
    (ran : performReorg rules surroundings state forkEntry = .ok after) :
    Moved state after ∧ after.tip = rules.blockHash forkEntry.header := by
  rw [performReorg] at ran
  cases walk : disconnectTo surroundings state (rules.blockHash forkEntry.header)
      (state.tipHeight + 1) state.tip with
  | error error => simp [walk, Except.map] at ran
  | ok heights =>
    simp only [walk, Except.map, Except.ok.injEq] at ran
    subst ran
    obtain ⟨steps, walked⟩ := walkDown_of_disconnectTo walk
    obtain ⟨tipEntry, foundTip, tipHeight⟩ := placed.tip
    have height := walkDown_height tree hashed foundTip walked known
    have same : ∀ hash, (state.write { heightHash := { removes := heights } }).index hash =
        state.index hash := by
      intro hash
      rw [index_write]
      rfl
    refine ⟨⟨?_, rfl, ⟨⟨forkEntry, ?_, rfl⟩, ?_⟩⟩, rfl⟩
    · exact (funext same : (state.write _).index = state.index) ▸ .refl _
    · exact (same _).trans known
    · intro row hash low found
      dsimp only at low found ⊢
      have earlier : state.store.getBlockHashByHeight row = some hash := by
        simp only [BranchState.write, InMemoryStore.getBlockHashByHeight, InMemoryStore.writeBatch,
          Writes.lookup_apply, lastPut, none_or] at found
        split at found
        · cases found
        · exact found
      have onChain := placed.rows (by omega) earlier
      have split : state.tipHeight - row = steps + (forkEntry.height - row) := by omega
      rw [split, walkDown_add, walked, bind_some] at onChain
      rw [← onChain]
      exact congrArg (fun index => walkDown index _ _) (funext same)

/-! ## Connecting -/

/-- Connecting a block that is not marked on top of the tip. -/
theorem connect_moved (entry : BlockIndexEntry) {old parent parentNow : BlockIndexEntry}
    (found : state.index hash = some old) (standing : old.status ≠ .invalid)
    (header : entry.header = old.header) (height : entry.height = old.height)
    (onTip : entry.header.prevBlockhash = state.tip)
    (known : state.index state.tip = some parentNow)
    (work : parentNow.chainwork = parent.chainwork) :
    Moved state (state.connect hash entry parent) ∧
      (state.connect hash entry parent).tip = hash := by
  obtain ⟨tipEntry, foundTip, tipHeight⟩ := placed.tip
  rw [known, Option.some.injEq] at foundTip
  subst foundTip
  have heights := tree.child hashed found (by rw [← header, onTip, known])
  have index : ∀ other, (state.connect hash entry parent).index other =
      (lastPut other [(hash, { entry with
        status := .valid
        chainwork := addU256 parent.chainwork (workForBits entry.header.bits) })]).or
        (state.index other) := fun other => index_write state _ other
  have regraded : Regraded state.index (state.connect hash entry parent).index := by
    refine regraded_of_puts _ index fun other put member => ?_
    obtain ⟨rfl, rfl⟩ := Prod.mk.inj (mem_singleton.mp member)
    refine ⟨old, found, header, height, ?_, fun pruned => by cases pruned⟩
    rw [heights.2, work, header]
  have same : (state.connect hash entry parent).index hash = some { entry with
      status := .valid
      chainwork := addU256 parent.chainwork (workForBits entry.header.bits) } := by
    rw [index]
    simp [lastPut]
  refine ⟨⟨⟨regraded, ?_⟩, rfl, ⟨⟨_, same, rfl⟩, ?_⟩⟩, rfl⟩
  · intro other before after foundBefore foundAfter
    by_cases here : hash = other
    · subst here
      rw [found, Option.some.injEq] at foundBefore
      rw [same, Option.some.injEq] at foundAfter
      subst foundBefore foundAfter
      simp [standing]
    · rw [index] at foundAfter
      simp only [lastPut, here, if_false, none_or] at foundAfter
      rw [foundBefore, Option.some.injEq] at foundAfter
      rw [foundAfter]
  · intro row rowHash low rowFound
    have tipNow : (state.connect hash entry parent).tipHeight = state.tipHeight + 1 := by
      change entry.height = _
      omega
    rw [tipNow] at low ⊢
    change walkDown _ _ hash = _
    rw [walkDown_regraded regraded]
    have rows : (state.connect hash entry parent).store.getBlockHashByHeight row =
        if entry.height = row then some hash else state.store.getBlockHashByHeight row := by
      simp only [BranchState.connect, BranchState.write, InMemoryStore.getBlockHashByHeight,
        InMemoryStore.writeBatch, Writes.lookup_apply, lastPut, not_mem_nil, if_false,
        none_or]
      split <;> rfl
    rw [rows] at rowFound
    split at rowFound
    next top =>
      rw [Option.some.injEq] at rowFound
      have none : state.tipHeight + 1 - row = 0 := by omega
      rw [none, walkDown, rowFound]
    next notTop =>
      have steps : state.tipHeight + 1 - row = (state.tipHeight - row) + 1 := by omega
      rw [steps, walkDown, found, bind_some, ← header, onTip]
      exact placed.rows (by omega) rowFound

/-- A block that a failure finds invalid is known and has a known parent. -/
def ReorgFailure.NamesChild (failure : ReorgFailure) (state : BranchState) : Prop :=
  ∀ bad, failure.invalid = some bad → ∃ entry parent,
    state.index bad = some entry ∧ state.index entry.header.prevBlockhash = some parent

omit hashed tree placed in
/-- What connecting a stored block comes to. -/
theorem connectStored_cases (surroundings : Surroundings) (state : BranchState) (hash : BlockHash) :
    match connectStored surroundings state hash with
    | .ok after => ∃ entry parent, state.index hash = some entry ∧
      state.index entry.header.prevBlockhash = some parent ∧
      after = state.connect hash entry parent
    | .error failure => failure.NamesChild state := by
  rw [connectStored]
  cases found : state.index hash with
  | none => exact nofun
  | some entry =>
    dsimp only
    split
    next ran =>
      split at ran
      · cases ran
      · cases known : state.index entry.header.prevBlockhash with
        | none => simp [known] at ran
        | some parent =>
          simp only [known] at ran
          split at ran
          · split at ran
            · cases ran
              exact ⟨entry, parent, rfl, known, rfl⟩
            · cases ran
            · cases ran
          · cases ran
    next failure ran =>
      intro bad named
      split at ran
      · cases ran
        cases named
      · cases known : state.index entry.header.prevBlockhash with
        | none =>
          simp only [known, Except.error.injEq] at ran
          subst ran
          cases named
        | some parent =>
          simp only [known] at ran
          split at ran
          · split at ran
            · cases ran
            · cases ran
              cases named
              exact ⟨entry, parent, found, known⟩
            · cases ran
              cases named
          · cases ran
            cases named

/-- Connecting the blocks of a branch one after the other, none of them marked. -/
theorem connectPath_moved (chained : Chained state.index state.tip path last)
    (standing : ∀ hash ∈ path, ∀ entry, state.index hash = some entry → entry.status ≠ .invalid) :
    match path.foldlM (connectStored surroundings) state with
    | .ok after => Moved state after ∧ after.tip = last
    | .error failure => failure.NamesChild state := by
  induction path generalizing state with
  | nil => exact ⟨⟨.refl _, rfl, placed⟩, chained⟩
  | cons hash rest ih =>
    rw [foldlM_cons]
    have spec := connectStored_cases surroundings state hash
    cases ran : connectStored surroundings state hash with
    | error failure =>
      rw [ran] at spec
      exact spec
    | ok next =>
      rw [ran] at spec
      obtain ⟨entry, parent, found, known, rfl⟩ := spec
      obtain ⟨⟨other, alsoFound, onTip⟩, more⟩ := chained
      rw [found, Option.some.injEq] at alsoFound
      subst alsoFound
      obtain ⟨moved, tip⟩ := connect_moved tree hashed placed entry found
        (standing hash mem_cons_self entry found) rfl rfl onTip (onTip ▸ known) rfl
      have later := ih (tree.of_kept moved.kept) moved.placed
        (tip ▸ more.regraded moved.kept.toRegraded) (fun other among otherEntry otherFound => by
          obtain ⟨earlier, knownEarlier, _⟩ := moved.kept.back otherFound
          rw [Ne, ← moved.kept.marks knownEarlier otherFound]
          exact standing other (mem_cons_of_mem _ among) earlier knownEarlier)
      change match rest.foldlM (connectStored surroundings) (state.connect hash entry parent) with
        | .ok after => _
        | .error failure => _
      cases rerun : rest.foldlM (connectStored surroundings) (state.connect hash entry parent) with
      | ok after =>
        rw [rerun] at later
        exact ⟨moved.trans later.1, later.2⟩
      | error failure =>
        rw [rerun] at later
        exact fun bad named => moved.known_before (later bad named)

variable (surroundings) in
/-- Connecting a branch from the tip up to a block that is not marked. -/
theorem reconnect_moved (last : BlockIndexEntry) {lastHash : BlockHash}
    (target : lastHash = state.tip ∨
      ∃ entry, state.index lastHash = some entry ∧ entry.status ≠ .invalid) :
    match reconnect surroundings state.tip last lastHash state with
    | .ok after => Moved state after ∧ after.tip = lastHash
    | .error failure => failure.NamesChild state := by
  rw [reconnect]
  cases collected : pathFrom state state.tip (last.height + 1) lastHash with
  | error error => exact nofun
  | ok path =>
    have chained := chained_pathFrom collected
    refine connectPath_moved tree hashed placed chained ?_
    rcases target with same | ⟨entry, found, standing⟩
    · rw [pathFrom, if_pos same, Except.ok.injEq] at collected
      subst collected
      simp
    · exact chained.unmarked tree found standing

omit hashed placed in
/-- The fork is a known block. -/
theorem findFork_known {tipEntry : BlockIndexEntry}
    (ran : findFork rules state tipEntry target = .ok forkEntry) :
    state.index (rules.blockHash forkEntry.header) = some forkEntry := by
  rw [findFork] at ran
  generalize fork : Option.bind (walkDown state.index _ _) _ = result at ran
  cases result with
  | none => cases ran
  | some entry =>
    cases ran
    obtain ⟨active, _, side⟩ := bind_eq_some_iff.mp fork
    obtain ⟨sideHash, _, met⟩ := bind_eq_some_iff.mp side
    obtain ⟨hash, _, found⟩ := bind_eq_some_iff.mp met
    rw [tree.keyed found, found]

end Moves

/-! ## Moving to a block -/

/-- The index is a tree and the tip has its place in it. -/
structure Arranged (rules : BlockRules) (genesis : Header) (headers : Set Header)
    (state : BranchState) : Prop where
  tree : Tree rules genesis headers state.index
  placed : Placed state

/-- The index and the tip are right afterwards, and the best header if it was before. -/
structure Keeps (rules : BlockRules) (genesis : Header) (headers : Set Header)
    (before after : BranchState) : Prop where
  arranged : Arranged rules genesis headers after
  crowned : Crowned before → Crowned after

section Reorg

variable {rules : BlockRules} {genesis : Header} {headers : Set Header}
  {surroundings : Surroundings} {state : BranchState}
  (sound : Arranged rules genesis headers state) (hashed : Hashed rules genesis headers)

theorem Arranged.moved (sound : Arranged rules genesis headers state) (moved : Moved state after) :
    Arranged rules genesis headers after :=
  ⟨sound.tree.of_kept moved.kept, moved.placed⟩

include sound hashed

theorem mark_sound {root : BlockHash} (known : state.index root = some entry)
    (other : root ≠ rules.blockHash genesis) (scan : IndexScan) :
    Arranged rules genesis headers (markSubtreeInvalid scan root state) :=
  ⟨mark_tree sound.tree hashed scan known other, mark_placed sound.tree scan sound.placed⟩

variable (surroundings) in
/-- A failed move marks the block it names, which is not the genesis block. -/
theorem abortReorg_sound {failure : ReorgFailure} (named : failure.NamesChild state) :
    Keeps rules genesis headers state (abortReorg surroundings state failure) := by
  rw [abortReorg]
  cases invalid : failure.invalid with
  | none => exact ⟨sound, id⟩
  | some bad =>
    obtain ⟨entry, parent, found, known⟩ := named bad invalid
    have other : bad ≠ rules.blockHash genesis := by
      rw [← sound.tree.keyed found]
      exact sound.tree.not_genesis hashed (sound.tree.given found) known
    exact ⟨mark_sound sound hashed found other _, fun crowned =>
      mark_crowned sound.tree hashed _ found other (crowned.but bad)⟩

section

variable (surroundings) (known : state.index (rules.blockHash target.header) = some target)
  (standing : target.status ≠ .invalid ∨ ∀ tipEntry forkEntry,
    state.index state.tip = some tipEntry →
    findFork rules state tipEntry target = .ok forkEntry → forkEntry = target)

include known standing

/-- Moving to a block that is not marked, or down to one of the active chain: the move is made,
or given up. -/
theorem reorgTo_cases :
    match (reorgTo rules surroundings target state).2 with
    | .ok _ => Moved state (reorgTo rules surroundings target state).1
    | .error failure =>
      (reorgTo rules surroundings target state).1 = abortReorg surroundings state failure ∧
        failure.NamesChild state := by
  rw [reorgTo]
  cases foundTip : state.index state.tip with
  | none => exact ⟨rfl, fun bad named => by cases named⟩
  | some tipEntry =>
    cases forked : findFork rules state tipEntry target with
    | error error =>
      simp only [forked]
      exact ⟨rfl, fun bad named => by cases named⟩
    | ok forkEntry =>
      simp only [forked]
      cases disconnected : performReorg rules surroundings state forkEntry with
      | error error => exact ⟨rfl, fun bad named => by cases named⟩
      | ok lower =>
        obtain ⟨moved, tip⟩ := performReorg_moved sound.tree hashed sound.placed
          (findFork_known sound.tree forked) disconnected
        have soundLower := sound.moved moved
        have wanted : rules.blockHash target.header = lower.tip ∨ ∃ entry,
            lower.index (rules.blockHash target.header) = some entry ∧ entry.status ≠ .invalid := by
          rcases standing with unmarked | down
          · obtain ⟨entry, found, _⟩ := moved.kept.forth known
            exact .inr ⟨entry, found, by rwa [Ne, ← moved.kept.marks known found]⟩
          · rw [tip, down tipEntry forkEntry foundTip forked]
            exact .inl rfl
        have spec := reconnect_moved surroundings soundLower.tree hashed soundLower.placed target
          wanted
        rw [← tip]
        dsimp only
        cases ran :
          reconnect surroundings lower.tip target (rules.blockHash target.header) lower with
        | ok after =>
          rw [ran] at spec
          exact moved.trans spec.1
        | error failure =>
          rw [ran] at spec
          exact ⟨rfl, fun bad named => moved.known_before (spec bad named)⟩

theorem reorgTo_sound :
    Keeps rules genesis headers state (reorgTo rules surroundings target state).1 := by
  have spec := reorgTo_cases surroundings sound hashed known standing
  cases ended : (reorgTo rules surroundings target state).2 with
  | ok _ =>
    rw [ended] at spec
    exact ⟨sound.moved spec, fun crowned => crowned.moved spec⟩
  | error failure =>
    rw [ended] at spec
    rw [spec.1]
    exact abortReorg_sound surroundings sound hashed spec.2

end

omit sound hashed in
variable (rules surroundings state) in
theorem pickCandidate_mem {tipEntry : BlockIndexEntry} {candidates : List BlockIndexEntry} :
    pickCandidate rules surroundings state tipEntry candidates = tipEntry ∨
      pickCandidate rules surroundings state tipEntry candidates ∈ candidates := by
  induction candidates with
  | nil => exact .inl rfl
  | cons candidate rest ih =>
    rw [pickCandidate]
    split
    · exact .inr mem_cons_self
    · split
      · exact .inl rfl
      · split
        · exact .inr mem_cons_self
        · exact ih.imp_right (mem_cons_of_mem candidate)

omit hashed in
/-- The best tip is the tip, or a known block with data. -/
theorem findBestValidTip_known {best : BlockIndexEntry}
    (ran : findBestValidTip rules surroundings state = .ok best) :
    rules.blockHash best.header = state.tip ∨
      state.index (rules.blockHash best.header) = some best ∧ best.status ≠ .invalid := by
  rw [findBestValidTip] at ran
  cases foundTip : state.index state.tip with
  | none => simp [foundTip] at ran
  | some tipEntry =>
    simp only [foundTip, Except.ok.injEq] at ran
    rcases pickCandidate_mem rules surroundings state with same | member
    · rw [same] at ran
      subst ran
      exact .inl (sound.tree.keyed foundTip)
    · rw [ran, mem_insertionSort] at member
      obtain ⟨listed, data⟩ := mem_filter.mp member
      obtain ⟨⟨hash, entry⟩, among, rfl⟩ := mem_map.mp listed
      have found := (surroundings.scan.mem_rows _ _ _).mp among
      refine .inr ⟨?_, unmarked_of_hasData data⟩
      rw [sound.tree.keyed found]
      exact found

variable (surroundings) in
theorem activateBestChain_sound :
    Keeps rules genesis headers state (activateBestChain rules surroundings state).1 := by
  rw [activateBestChain]
  cases best : findBestValidTip rules surroundings state with
  | error error => exact ⟨sound, id⟩
  | ok target =>
    dsimp only
    split
    · exact ⟨sound, id⟩
    next elsewhere =>
      rcases findBestValidTip_known sound best with onTip | ⟨known, standing⟩
      · exact absurd onTip elsewhere
      · exact reorgTo_sound surroundings sound hashed known (.inl standing)

omit hashed in
/-- A block of the active chain lies as deep below the tip as its height says. -/
theorem walkDown_of_activeChainContains {height : Nat}
    (contains : activeChainContains state hash height = true) :
    height ≤ state.tipHeight ∧
      walkDown state.index (state.tipHeight - height) state.tip = some hash := by
  rw [activeChainContains, decide_eq_true_eq, activeChainHashAtHeight] at contains
  obtain ⟨low, row | walked⟩ := contains
  · exact ⟨low, sound.placed.rows low row⟩
  · rw [if_neg (by omega)] at walked
    exact ⟨low, walked⟩

/-- The parent of a block of the active chain is where it and the tip meet. -/
theorem findFork_parent {parent tipEntry : BlockIndexEntry} (found : state.index hash = some entry)
    (contains : activeChainContains state hash entry.height = true)
    (known : state.index entry.header.prevBlockhash = some parent)
    (foundTip : state.index state.tip = some tipEntry)
    (forked : findFork rules state tipEntry parent = .ok forkEntry) : forkEntry = parent := by
  obtain ⟨low, walked⟩ := walkDown_of_activeChainContains sound contains
  obtain ⟨tipAgain, foundAgain, tipHeight⟩ := sound.placed.tip
  rw [foundTip, Option.some.injEq] at foundAgain
  subst foundAgain
  have height := (sound.tree.child hashed found known).1
  have active : walkDown state.index (tipEntry.height - parent.height)
      (rules.blockHash tipEntry.header) = some (rules.blockHash parent.header) := by
    have steps : tipEntry.height - parent.height = (state.tipHeight - entry.height) + 1 := by omega
    rw [sound.tree.keyed foundTip, sound.tree.keyed known, steps, walkDown_add, walked]
    simp [walkDown, found]
  have side : parent.height - tipEntry.height = 0 := by omega
  have meets : ∀ steps, meet state.index steps (rules.blockHash parent.header)
      (rules.blockHash parent.header) = some (rules.blockHash parent.header) := by
    intro steps
    cases steps <;> simp [meet]
  have reached : state.index (rules.blockHash parent.header) = some parent := by
    rw [sound.tree.keyed known, known]
  rw [findFork, active, side] at forked
  simp only [walkDown, bind_some, meets, reached, elim_some, Except.ok.injEq] at forked
  exact forked.symm

/-! ## Moves that succeed -/

/-- The way to the best chain is free: the tip is the best block, or the fork below both was
connected, the blocks of the active chain above it can be disconnected, and those above it up to
the best block can be read and connected. -/
def canActivate (rules : BlockRules) (surroundings : Surroundings) (state : BranchState) : Bool :=
  match findBestValidTip rules surroundings state, state.index state.tip with
  | .ok best, some tipEntry =>
    rules.blockHash best.header = state.tip ||
      match findFork rules state tipEntry best with
      | .error _ => false
      | .ok forkEntry =>
        let fork := rules.blockHash forkEntry.header
        match pathFrom state fork (state.tipHeight + 1) state.tip,
          pathFrom state fork (best.height + 1) (rules.blockHash best.header) with
        | .ok leaving, .ok entering =>
          forkEntry.status = .valid && leaving.all surroundings.disconnects &&
            entering.all fun hash => surroundings.connects hash = .connected
        | _, _ => false
  | _, _ => false

omit sound hashed in
theorem disconnectTo_succeeds {fuel : Nat} {leaving : List BlockHash}
    (collected : pathFrom state fork fuel hash = .ok leaving)
    (readable : ∀ other ∈ leaving, surroundings.disconnects other = true) :
    ∃ heights, disconnectTo surroundings state fork fuel hash = .ok heights := by
  induction fuel generalizing hash leaving with
  | zero =>
    rw [pathFrom] at collected
    rw [disconnectTo]
    split at collected
    next same => exact ⟨[], if_pos same⟩
    next => cases collected
  | succ fuel ih =>
    rw [pathFrom] at collected
    rw [disconnectTo]
    split at collected
    next same => exact ⟨[], if_pos same⟩
    next other =>
      rw [if_neg other]
      cases found : state.index hash with
      | none => simp [found] at collected
      | some entry =>
        simp only [found] at collected ⊢
        cases below : pathFrom state fork fuel entry.header.prevBlockhash with
        | error error => simp [below, Except.map] at collected
        | ok lower =>
          simp only [below, Except.map, Except.ok.injEq] at collected
          subst collected
          obtain ⟨heights, ran⟩ := ih below fun other among =>
            readable other (mem_append_left _ among)
          rw [if_pos (readable hash (by simp)), ran]
          exact ⟨_, rfl⟩

omit sound hashed in
/-- The blocks above the fork depend on the index only. -/
theorem pathFrom_congr {other : BranchState} (same : other.index = state.index) (fuel : Nat)
    (hash : BlockHash) : pathFrom other fork fuel hash = pathFrom state fork fuel hash := by
  induction fuel generalizing hash with
  | zero => rfl
  | succ fuel ih => simp only [pathFrom, same, ih]

omit sound in
/-- Blocks one on the other are all connected if the tip is and each of them connects. -/
theorem connectPath_succeeds (sound : Arranged rules genesis headers state)
    (chained : Chained state.index state.tip path last)
    (standing : ∀ hash ∈ path, ∀ entry, state.index hash = some entry → entry.status ≠ .invalid)
    (connects : ∀ hash ∈ path, surroundings.connects hash = .connected)
    (based : requireConnectedParent state state.tip = true) :
    ∃ after, path.foldlM (connectStored surroundings) state = .ok after := by
  induction path generalizing state with
  | nil => exact ⟨state, rfl⟩
  | cons hash rest ih =>
    obtain ⟨⟨entry, found, onTip⟩, more⟩ := chained
    obtain ⟨parent, known, -⟩ := sound.placed.tip
    have ran : connectStored surroundings state hash = .ok (state.connect hash entry parent) := by
      simp [connectStored, found, connects hash mem_cons_self, onTip, known, based]
    obtain ⟨moved, tip⟩ := connect_moved sound.tree hashed sound.placed entry found
      (standing hash mem_cons_self entry found) rfl rfl onTip known rfl
    have self : (state.connect hash entry parent).index hash = some { entry with
        status := .valid
        chainwork := addU256 parent.chainwork (workForBits entry.header.bits) } := by
      change (state.write _).index hash = _
      rw [index_write]
      simp [lastPut]
    obtain ⟨after, later⟩ := ih (sound.moved moved)
      (tip ▸ more.regraded moved.kept.toRegraded) (fun other among otherEntry otherFound => by
        obtain ⟨earlier, knownEarlier, _⟩ := moved.kept.back otherFound
        rw [Ne, ← moved.kept.marks knownEarlier otherFound]
        exact standing other (mem_cons_of_mem _ among) earlier knownEarlier)
      (fun other among => connects other (mem_cons_of_mem _ among))
      (by rw [tip, requireConnectedParent, self]; rfl)
    exact ⟨after, by rw [foldlM_cons, ran]; exact later⟩

/-- A move to the best chain succeeds if the way to it is free. -/
theorem activateBestChain_succeeds (free : canActivate rules surroundings state = true) :
    (activateBestChain rules surroundings state).2 = .ok () := by
  rw [canActivate] at free
  rw [activateBestChain]
  cases chosen : findBestValidTip rules surroundings state with
  | error error => simp [chosen] at free
  | ok best =>
    cases foundTip : state.index state.tip with
    | none => simp [chosen, foundTip] at free
    | some tipEntry =>
      dsimp only
      split
      · rfl
      next elsewhere =>
        obtain ⟨known, standing⟩ :=
          (findBestValidTip_known sound chosen).resolve_left elsewhere
        simp only [chosen, foundTip, elsewhere, decide_false, Bool.false_or] at free
        cases forked : findFork rules state tipEntry best with
        | error error => simp [forked] at free
        | ok forkEntry =>
          simp only [forked] at free
          split at free
          next leaving entering left entered =>
            simp only [Bool.and_eq_true, decide_eq_true_eq, List.all_eq_true] at free
            obtain ⟨⟨valid, readable⟩, connects⟩ := free
            obtain ⟨heights, walked⟩ := disconnectTo_succeeds left readable
            have fork := findFork_known sound.tree forked
            have disconnected : performReorg rules surroundings state forkEntry = .ok
                { state.write { heightHash := { removes := heights } } with
                  tip := rules.blockHash forkEntry.header, tipHeight := forkEntry.height } := by
              rw [performReorg, walked]
              rfl
            obtain ⟨moved, tip⟩ :=
              performReorg_moved sound.tree hashed sound.placed fork disconnected
            have index : ({ state.write { heightHash := { removes := heights } } with
                tip := rules.blockHash forkEntry.header,
                tipHeight := forkEntry.height } : BranchState).index = state.index :=
              funext fun hash => index_write state _ hash
            have chained := chained_pathFrom entered
            obtain ⟨after, ran⟩ := connectPath_succeeds hashed (sound.moved moved)
              (by rw [index]; exact chained)
              (by rw [index]; exact chained.unmarked sound.tree known standing) connects
              (by simp [requireConnectedParent, index, fork, valid])
            simp [reorgTo, foundTip, forked, disconnected, reconnect, pathFrom_congr index, entered,
              ran, Except.mapError]
          next => cases free

end Reorg

end Satd.Chain
