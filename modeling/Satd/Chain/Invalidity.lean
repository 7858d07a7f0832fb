import Satd.Chain.Branches

/-!
# Invalid branches

No block that is not marked has a marked ancestor, and the best header is the heaviest
block that is not marked. Marking a subtree and taking marks back keep the first
(`mark_tree`, `clear_tree`): the walk over the index visits a block with all its
descendants.
-/

namespace Satd.Chain

open KeyedMap Lineage Satd.Bitcoin Satd.Storage List Option

/-! ## The index as a tree -/

/-- Two entries of one block, with other marks perhaps. -/
structure SameBlock (first second : BlockIndexEntry) : Prop where
  header : second.header = first.header
  height : second.height = first.height
  chainwork : second.chainwork = first.chainwork
  pruned : second.status = .pruned → first.status = .pruned

/-- The same blocks, with other marks perhaps. -/
structure Regraded (before after : IndexLookup) : Prop where
  forth : ∀ {hash entry}, before hash = some entry →
    ∃ other, after hash = some other ∧ SameBlock entry other
  back : ∀ {hash other}, after hash = some other →
    ∃ entry, before hash = some entry ∧ SameBlock entry other

/-- The same blocks with the same marks. -/
structure Kept (before after : IndexLookup) : Prop extends Regraded before after where
  marks : ∀ {hash entry other}, before hash = some entry → after hash = some other →
    (entry.status = .invalid ↔ other.status = .invalid)

theorem SameBlock.refl (entry : BlockIndexEntry) : SameBlock entry entry := ⟨rfl, rfl, rfl, id⟩

theorem SameBlock.trans {first second third : BlockIndexEntry} (left : SameBlock first second)
    (right : SameBlock second third) : SameBlock first third where
  header := right.header.trans left.header
  height := right.height.trans left.height
  chainwork := right.chainwork.trans left.chainwork
  pruned marked := left.pruned (right.pruned marked)

theorem Kept.refl (index : IndexLookup) : Kept index index where
  forth found := ⟨_, found, .refl _⟩
  back found := ⟨_, found, .refl _⟩
  marks first second := by
    obtain rfl := some.inj (first.symm.trans second)
    exact .rfl

theorem Kept.trans {first second third : IndexLookup} (left : Kept first second)
    (right : Kept second third) : Kept first third where
  forth found := by
    obtain ⟨middle, foundMiddle, same⟩ := left.forth found
    obtain ⟨last, foundLast, alsoSame⟩ := right.forth foundMiddle
    exact ⟨last, foundLast, same.trans alsoSame⟩
  back found := by
    obtain ⟨middle, foundMiddle, same⟩ := right.back found
    obtain ⟨first, foundFirst, alsoSame⟩ := left.back foundMiddle
    exact ⟨first, foundFirst, alsoSame.trans same⟩
  marks foundFirst foundLast := by
    obtain ⟨middle, foundMiddle, _⟩ := left.forth foundFirst
    exact (left.marks foundFirst foundMiddle).trans (right.marks foundMiddle foundLast)

variable {after : IndexLookup} {hash : BlockHash} {entry parent : BlockIndexEntry}

variable {before : IndexLookup}

/-- Entries that are written over their own blocks. -/
theorem regraded_of_puts (puts : List (BlockHash × BlockIndexEntry))
    (written : ∀ hash, after hash = (lastPut hash puts).or (before hash))
    (same : ∀ hash other, (hash, other) ∈ puts → ∃ entry, before hash = some entry ∧
      SameBlock entry other) :
    Regraded before after where
  forth {hash entry} found := by
    cases put : lastPut hash puts with
    | none => exact ⟨entry, by rw [written, put, found]; rfl, .refl _⟩
    | some other =>
      obtain ⟨earlier, known, block⟩ := same hash other (mem_of_lastPut put)
      obtain rfl := some.inj (known.symm.trans found)
      exact ⟨other, by rw [written, put]; rfl, block⟩
  back {hash other} found := by
    rw [written, or_eq_some_iff] at found
    obtain put | ⟨-, found⟩ := found
    · exact same hash other (mem_of_lastPut put)
    · exact ⟨other, found, .refl _⟩

/-- A well-formed index over the headers of a run: every block is known under its hash and
hangs on its parent, with one more unit of height and its own work on top. No block that is
not marked has a marked parent. -/
structure Tree (rules : BlockRules) (genesis : Header) (headers : Set Header)
    (index : IndexLookup) : Prop where
  keyed : ∀ {hash entry}, index hash = some entry → rules.blockHash entry.header = hash
  given : ∀ {hash entry}, index hash = some entry → entry.header ∈ headers
  unpruned : ∀ {hash entry}, index hash = some entry → entry.status ≠ .pruned
  linked : ∀ {hash entry}, index hash = some entry →
    entry.header = genesis ∧ entry.height = 0 ∨
      ∃ parent, index entry.header.prevBlockhash = some parent ∧
        entry.height = parent.height + 1 ∧
        entry.chainwork = addU256 parent.chainwork (workForBits entry.header.bits)
  clean : ∀ {hash entry parent}, index hash = some entry →
    index entry.header.prevBlockhash = some parent → parent.status = .invalid →
    entry.status = .invalid
  rooted : ∃ entry, index (rules.blockHash genesis) = some entry ∧ entry.status ≠ .invalid

/-- The headers of a run have hashes of their own, and none of them is the parent the genesis
block names. -/
structure Hashed (rules : BlockRules) (genesis : Header) (headers : Set Header) : Prop where
  distinct : Set.InjOn rules.blockHash headers
  given : genesis ∈ headers
  loose : ∀ header ∈ headers, rules.blockHash header ≠ genesis.prevBlockhash

/-- The best header is known, not marked, and none that is not marked is heavier. -/
structure Crowned (state : BranchState) : Prop where
  best : ∃ entry, state.index state.bestHeader.1 = some entry ∧
    entry.chainwork = state.bestHeader.2 ∧ entry.status ≠ .invalid
  heaviest : ∀ {hash entry}, state.index hash = some entry → entry.status ≠ .invalid →
    entry.chainwork ≤ state.bestHeader.2

/-- The same, but for one block that may be heavier. -/
structure CrownedBut (state : BranchState) (spared : BlockHash) : Prop where
  best : ∃ entry, state.index state.bestHeader.1 = some entry ∧
    entry.chainwork = state.bestHeader.2 ∧ entry.status ≠ .invalid
  heaviest : ∀ {hash entry}, hash ≠ spared → state.index hash = some entry →
    entry.status ≠ .invalid → entry.chainwork ≤ state.bestHeader.2

theorem Crowned.but {state : BranchState} (crowned : Crowned state) (spared : BlockHash) :
    CrownedBut state spared :=
  ⟨crowned.best, fun _ found standing => crowned.heaviest found standing⟩

/-- The tip is known at its height, and a row at or below it names a block of its chain. -/
structure Placed (state : BranchState) : Prop where
  tip : ∃ entry, state.index state.tip = some entry ∧ entry.height = state.tipHeight
  rows : ∀ {height hash}, height ≤ state.tipHeight →
    state.store.getBlockHashByHeight height = some hash →
    walkDown state.index (state.tipHeight - height) state.tip = some hash

theorem walkDown_regraded (regraded : Regraded before after) (steps : Nat) (hash : BlockHash) :
    walkDown after steps hash = walkDown before steps hash := by
  induction steps generalizing hash with
  | zero => rfl
  | succ steps ih =>
    cases found : before hash with
    | some entry =>
      obtain ⟨other, foundOther, same⟩ := regraded.forth found
      simp [walkDown, found, foundOther, same.header, ih]
    | none =>
      have unknown : after hash = none := by
        cases foundOther : after hash with
        | none => rfl
        | some other =>
          obtain ⟨entry, known, _⟩ := regraded.back foundOther
          simp [found] at known
      simp [walkDown, found, unknown]

/-- Other marks, and the same tip and rows. -/
theorem Placed.regraded {before after : BranchState} (placed : Placed before)
    (regraded : Regraded before.index after.index) (tip : after.tip = before.tip)
    (tipHeight : after.tipHeight = before.tipHeight)
    (rows : ∀ height ≤ before.tipHeight, after.store.getBlockHashByHeight height =
      before.store.getBlockHashByHeight height) : Placed after where
  tip := by
    obtain ⟨entry, found, height⟩ := placed.tip
    obtain ⟨other, foundOther, same⟩ := regraded.forth found
    exact ⟨other, by rw [tip]; exact foundOther, by rw [same.height, height, tipHeight]⟩
  rows {height hash} low row := by
    rw [tipHeight] at low ⊢
    rw [rows height low] at row
    rw [tip, walkDown_regraded regraded]
    exact placed.rows low row

section Index

variable {rules : BlockRules} {genesis : Header} {headers : Set Header} {index : IndexLookup}

section

variable (tree : Tree rules genesis headers index)
include tree

theorem Tree.of_regraded (regraded : Regraded index after)
    (clean : ∀ {hash entry parent}, after hash = some entry →
      after entry.header.prevBlockhash = some parent → parent.status = .invalid →
      entry.status = .invalid)
    (rooted : ∀ entry, after (rules.blockHash genesis) = some entry → entry.status ≠ .invalid) :
    Tree rules genesis headers after where
  keyed found := by
    obtain ⟨entry, known, same⟩ := regraded.back found
    rw [same.header]
    exact tree.keyed known
  given found := by
    obtain ⟨entry, known, same⟩ := regraded.back found
    rw [same.header]
    exact tree.given known
  unpruned found marked := by
    obtain ⟨entry, known, same⟩ := regraded.back found
    exact tree.unpruned known (same.pruned marked)
  linked found := by
    obtain ⟨entry, known, same⟩ := regraded.back found
    rw [same.header, same.height, same.chainwork]
    refine (tree.linked known).imp_right ?_
    rintro ⟨parent, knownParent, height, work⟩
    obtain ⟨other, foundOther, alsoSame⟩ := regraded.forth knownParent
    exact ⟨other, foundOther, by rw [alsoSame.height, height], by rw [alsoSame.chainwork, work]⟩
  clean := clean
  rooted := by
    obtain ⟨entry, known, _⟩ := tree.rooted
    obtain ⟨other, found, _⟩ := regraded.forth known
    exact ⟨other, found, rooted other found⟩

theorem Tree.of_kept (kept : Kept index after) : Tree rules genesis headers after := by
  refine tree.of_regraded kept.toRegraded ?_ ?_
  · intro hash entry parent found foundParent marked
    obtain ⟨earlier, known, same⟩ := kept.back found
    obtain ⟨earlierParent, knownParent, _⟩ := kept.back foundParent
    rw [same.header] at knownParent
    rw [← kept.marks known found]
    refine tree.clean known knownParent ((kept.marks knownParent ?_).mpr marked)
    rw [← same.header]
    exact foundParent
  · intro entry found
    obtain ⟨earlier, known, unmarked⟩ := tree.rooted
    rwa [Ne, ← kept.marks known found]

/-- Every ancestor of a block that is not marked is not marked. -/
theorem Tree.ancestor_unmarked {ancestor : BlockHash}
    {ancestorEntry : BlockIndexEntry} (found : index hash = some entry)
    (unmarked : entry.status ≠ .invalid) {level : Nat}
    (above : ancestorAt (indexView index) hash level = some ancestor)
    (foundAncestor : index ancestor = some ancestorEntry) : ancestorEntry.status ≠ .invalid := by
  have linked : Linked (indexView index) := by
    intro hash depth parent here
    simp only [indexView, map_eq_some_iff, Prod.mk.injEq] at here ⊢
    obtain ⟨entry, known, height, rfl⟩ := here
    rcases tree.linked known with ⟨_, bottom⟩ | ⟨parent, knownParent, level, _⟩
    · omega
    · exact ⟨_, parent, knownParent, by omega, rfl⟩
  generalize depth : entry.height = height at *
  induction height generalizing hash entry with
  | zero =>
    have within := (ancestorAt_isSome (indexView_eq found)).mp (by rw [above]; rfl)
    obtain rfl : level = entry.height := by omega
    rw [ancestorAt_self (indexView_eq found), some.injEq] at above
    subst above
    rw [found, some.injEq] at foundAncestor
    rwa [← foundAncestor]
  | succ height ih =>
    have within := (ancestorAt_isSome (indexView_eq found)).mp (by rw [above]; rfl)
    by_cases same : level = entry.height
    · subst same
      rw [ancestorAt_self (indexView_eq found), some.injEq] at above
      subst above
      rw [found, some.injEq] at foundAncestor
      rwa [← foundAncestor]
    · rcases tree.linked found with ⟨_, bottom⟩ | ⟨parent, knownParent, levels, _⟩
      · omega
      · rw [ancestor_below linked found depth (by omega)] at above
        exact ih knownParent
          (fun marked => unmarked (tree.clean found knownParent marked)) above (by omega)

/-- No known block has the hash the genesis block names as its parent. -/
theorem Tree.unrooted (hashed : Hashed rules genesis headers) :
    index genesis.prevBlockhash = none := by
  cases found : index genesis.prevBlockhash with
  | none => rfl
  | some entry => exact absurd (tree.keyed found) (hashed.loose _ (tree.given found))

/-- A block is one above its known parent and adds its own work. -/
theorem Tree.child (hashed : Hashed rules genesis headers) (found : index hash = some entry)
    (known : index entry.header.prevBlockhash = some parent) :
    entry.height = parent.height + 1 ∧
      entry.chainwork = addU256 parent.chainwork (workForBits entry.header.bits) := by
  rcases tree.linked found with ⟨isGenesis, _⟩ | ⟨other, alsoKnown, sum⟩
  · rw [isGenesis, tree.unrooted hashed] at known
    cases known
  · rw [alsoKnown, some.injEq] at known
    exact known ▸ sum

/-- A block whose parent is known is not the genesis block. -/
theorem Tree.not_genesis
    (hashed : Hashed rules genesis headers) {header : Header} (given : header ∈ headers)
    (known : index header.prevBlockhash = some parent) :
    rules.blockHash header ≠ rules.blockHash genesis := by
  intro same
  obtain rfl := hashed.distinct given hashed.given same
  rw [tree.unrooted hashed] at known
  cases known

end

end Index

/-! ## Subtrees -/

section Marks

variable {rules : BlockRules} {genesis : Header} {headers : Set Header} {state : BranchState}

theorem index_write (state : BranchState) (batch : StoreBatch) (hash : BlockHash) :
    (state.write batch).index hash = (lastPut hash batch.blockIndexPuts).or (state.index hash) := by
  simp [BranchState.index, BranchState.write, InMemoryStore.getBlockIndex,
    InMemoryStore.writeBatch, lookup_putAll]

theorem mem_blockIndexChildren {scan : IndexScan} {state : BranchState} {child : BlockHash} :
    child ∈ blockIndexChildren (scan.rows state.store) hash ↔
      ∃ entry, state.index child = some entry ∧ entry.header.prevBlockhash = hash := by
  rw [blockIndexChildren, List.mem_map]
  constructor
  · rintro ⟨⟨_, entry⟩, member, rfl⟩
    obtain ⟨among, parent⟩ := mem_filter.mp member
    exact ⟨entry, (scan.mem_rows _ _ _).mp among, by simpa using parent⟩
  · rintro ⟨entry, found, parent⟩
    exact ⟨(child, entry), mem_filter.mpr ⟨(scan.mem_rows _ _ _).mpr found, by simpa using parent⟩,
      rfl⟩

theorem recalculate_index (scan : IndexScan) (state : BranchState) :
    (recalculateBestHeader scan state).index = state.index := by
  rw [recalculateBestHeader]
  split <;> rfl

/-- The scan finds a heaviest row among those that are not marked. -/
theorem heaviestRow_spec (rows : List (BlockHash × BlockIndexEntry)) :
    match heaviestRow rows with
    | none => ∀ row ∈ rows, row.2.status = .invalid
    | some heaviest => heaviest ∈ rows ∧ heaviest.2.status ≠ .invalid ∧
      ∀ row ∈ rows, row.2.status ≠ .invalid → row.2.chainwork ≤ heaviest.2.chainwork := by
  induction rows using reverseRecOn with
  | nil => simp [heaviestRow]
  | append_singleton rows last ih =>
    rw [heaviestRow, foldl_append, foldl_cons, foldl_nil, ← heaviestRow]
    by_cases marked : last.2.status = .invalid
    · rw [if_pos marked]
      cases chosen : heaviestRow rows with
      | none => simpa [chosen, or_imp, forall_and, marked] using ih
      | some heaviest =>
        simp only [chosen] at ih ⊢
        obtain ⟨member, unmarked, bound⟩ := ih
        refine ⟨mem_append_left _ member, unmarked, forall_mem_append.mpr ⟨bound, ?_⟩⟩
        exact forall_mem_singleton.mpr (absurd marked)
    · rw [if_neg marked]
      cases chosen : heaviestRow rows with
      | none =>
        simp only [chosen] at ih ⊢
        refine ⟨by simp, marked, forall_mem_append.mpr ⟨?_, by simp⟩⟩
        intro row earlier standing
        exact absurd (ih row earlier) standing
      | some heaviest =>
        simp only [chosen] at ih ⊢
        obtain ⟨member, unmarked, bound⟩ := ih
        by_cases heavier : heaviest.2.chainwork < last.2.chainwork
        · simp only [if_pos heavier]
          refine ⟨by simp, marked, forall_mem_append.mpr ⟨?_, by simp⟩⟩
          intro row earlier standing
          exact (bound row earlier standing).trans heavier.le
        · simp only [if_neg heavier]
          refine ⟨mem_append_left _ member, unmarked, forall_mem_append.mpr ⟨bound, ?_⟩⟩
          exact forall_mem_singleton.mpr fun _ => not_lt.mp heavier

/-- A scan sets the best header right, if there is a block that is not marked. -/
theorem recalculate_crowned {scan : IndexScan} {state : BranchState}
    (found : state.index hash = some entry) (unmarked : entry.status ≠ .invalid) :
    Crowned (recalculateBestHeader scan state) := by
  have spec := heaviestRow_spec (scan.rows state.store)
  have listed : ∀ {hash entry}, state.index hash = some entry →
    (hash, entry) ∈ scan.rows state.store :=
    fun found => (scan.mem_rows _ _ _).mpr found
  rw [recalculateBestHeader]
  cases chosen : heaviestRow (scan.rows state.store) with
  | none =>
    simp only [chosen] at spec
    exact absurd (spec _ (listed found)) unmarked
  | some heaviest =>
    obtain ⟨best, bestEntry⟩ := heaviest
    simp only [chosen] at spec
    obtain ⟨member, standing, bound⟩ := spec
    exact ⟨⟨bestEntry, (scan.mem_rows _ _ _).mp member, rfl, standing⟩,
      fun found unmarked => bound _ (listed found) unmarked⟩

/-- The depth of a block in the index. What is not known lies above everything. -/
def depth (index : IndexLookup) (hash : BlockHash) : Nat :=
  (index hash).elim 0 fun entry => entry.height + 1

theorem forest_children (tree : Tree rules genesis headers state.index)
    (hashed : Hashed rules genesis headers) {scan : IndexScan} :
    Subtree.Forest (blockIndexChildren (scan.rows state.store)) (depth state.index) where
  nodup hash := by
    rw [blockIndexChildren]
    exact (scan.nodup state.store).sublist ((filter_sublist).map _)
  parent isChild alsoChild := by
    obtain ⟨entry, found, rfl⟩ := (mem_blockIndexChildren).mp isChild
    obtain ⟨other, alsoFound, rfl⟩ := (mem_blockIndexChildren).mp alsoChild
    rw [some.inj (found.symm.trans alsoFound)]
  deeper isChild := by
    obtain ⟨entry, found, rfl⟩ := (mem_blockIndexChildren).mp isChild
    rcases tree.linked found with ⟨isGenesis, _⟩ | ⟨parent, knownParent, height, _⟩
    · simp [depth, found, isGenesis, tree.unrooted hashed]
    · simp [depth, found, knownParent, height]

/-- The walk from a block takes it, with every block its children, and nothing else. -/
theorem subtree_settled (tree : Tree rules genesis headers state.index)
    (hashed : Hashed rules genesis headers) {scan : IndexScan} {root : BlockHash} :
    Subtree.Settled (blockIndexChildren (scan.rows state.store)) (depth state.index) root
      (subtree scan state.store root) [] := by
  have bound : (insert root ((scan.rows state.store).map Prod.fst).toFinset).card <
      (scan.rows state.store).length + 2 := by
    have inserted := Finset.card_insert_le root ((scan.rows state.store).map Prod.fst).toFinset
    have listed := toFinset_card_le ((scan.rows state.store).map Prod.fst)
    rw [length_map] at listed
    omega
  refine Subtree.walk_settled (forest_children tree hashed) (fun hash child isChild => ?_)
    (Finset.mem_insert_self _ _) bound
  obtain ⟨entry, found, _⟩ := (mem_blockIndexChildren).mp isChild
  refine Finset.mem_insert_of_mem (mem_toFinset.mpr (mem_map.mpr ⟨(child, entry), ?_, rfl⟩))
  exact (scan.mem_rows _ _ _).mpr found

variable (tree : Tree rules genesis headers state.index)
  (hashed : Hashed rules genesis headers) (scan : IndexScan)

include tree hashed

theorem root_mem_subtree {root : BlockHash} : root ∈ subtree scan state.store root := by
  simpa using (subtree_settled tree hashed).rooted

variable {root : BlockHash} {rootEntry : BlockIndexEntry}

/-- With a block its children are in the subtree. -/
theorem child_mem_subtree (found : state.index hash = some entry)
    (within : entry.header.prevBlockhash ∈ subtree scan state.store root) :
    hash ∈ subtree scan state.store root := by
  have closed := (subtree_settled tree hashed).closed _ within hash
    ((mem_blockIndexChildren).mpr ⟨entry, found, rfl⟩)
  simpa using closed

/-- A block of the subtree is its root, or its parent is in the subtree. -/
theorem parent_mem_subtree (found : state.index hash = some entry)
    (within : hash ∈ subtree scan state.store root) :
    hash = root ∨ entry.header.prevBlockhash ∈ subtree scan state.store root := by
  rcases (subtree_settled tree hashed).reached hash (by simpa using within) with
    rfl | ⟨above, earlier, isChild⟩
  · exact .inl rfl
  · obtain ⟨other, alsoFound, rfl⟩ := (mem_blockIndexChildren).mp isChild
    rw [found, some.injEq] at alsoFound
    exact .inr (alsoFound ▸ earlier)

/-- The genesis block is in no subtree of a known block but its own. -/
theorem genesis_not_mem_subtree (known : state.index root = some rootEntry)
    (other : root ≠ rules.blockHash genesis) :
    rules.blockHash genesis ∉ subtree scan state.store root := by
  intro within
  obtain ⟨entry, found, _⟩ := tree.rooted
  have isGenesis : entry.header = genesis :=
    hashed.distinct (tree.given found) hashed.given (tree.keyed found)
  have unrooted := tree.unrooted hashed
  rcases parent_mem_subtree tree hashed scan found within with same | above
  · exact other same.symm
  · rw [isGenesis] at above
    rcases (subtree_settled tree hashed).reached _ (by simpa using above) with
      same | ⟨_, _, isChild⟩
    · rw [same, known] at unrooted
      cases unrooted
    · obtain ⟨_, alsoFound, _⟩ := (mem_blockIndexChildren).mp isChild
      rw [unrooted] at alsoFound
      cases alsoFound

/-! ## Marking -/

omit hashed in
/-- The index after a block and its descendants were marked. -/
theorem mark_index (root hash : BlockHash) :
    (markSubtreeInvalid scan root state).index hash =
      if hash ∈ subtree scan state.store root then
        (state.index hash).map fun entry => { entry with status := .invalid }
      else state.index hash := by
  have same : (markSubtreeInvalid scan root state).index = (writeMarks scan root state).index := by
    rw [markSubtreeInvalid]
    split
    · rw [recalculate_index]
    · rfl
  rw [same, writeMarks, index_write, lastPut_rowsOf]
  split
  next within =>
    cases found : state.index hash with
    | none => simp [markedEntry, found]
    | some entry =>
      have unpruned := tree.unpruned found
      by_cases marked : entry.status = .invalid
      · have same : ({ entry with status := .invalid } : BlockIndexEntry) = entry := by
          cases entry
          cases marked
          rfl
        simp [markedEntry, found, marked, same]
      · simp [markedEntry, found, marked, unpruned]
  next => rfl

omit hashed in
theorem mark_regraded (root : BlockHash) :
    Regraded state.index (markSubtreeInvalid scan root state).index where
  forth {hash entry} found := by
    rw [mark_index tree scan]
    split
    · exact ⟨{ entry with status := .invalid }, by rw [found]; rfl, rfl, rfl, rfl,
        fun marked => by cases marked⟩
    · exact ⟨entry, found, .refl _⟩
  back {hash other} found := by
    rw [mark_index tree scan] at found
    split at found
    · obtain ⟨entry, known, rfl⟩ := map_eq_some_iff.mp found
      exact ⟨entry, known, rfl, rfl, rfl, fun marked => by cases marked⟩
    · exact ⟨other, found, .refl _⟩

omit hashed in
/-- Whatever is not marked afterwards is outside the subtree, and as it was. -/
theorem mark_unmarked (found : (markSubtreeInvalid scan root state).index hash = some entry)
    (unmarked : entry.status ≠ .invalid) :
    hash ∉ subtree scan state.store root ∧ state.index hash = some entry := by
  rw [mark_index tree scan] at found
  split at found
  · obtain ⟨earlier, _, rfl⟩ := map_eq_some_iff.mp found
    exact absurd rfl unmarked
  next outside => exact ⟨outside, found⟩

/-- Marking a known block with its descendants keeps the index a tree. -/
theorem mark_tree (known : state.index root = some rootEntry)
    (other : root ≠ rules.blockHash genesis) :
    Tree rules genesis headers (markSubtreeInvalid scan root state).index := by
  refine tree.of_regraded (mark_regraded tree scan root) ?_ ?_
  · intro hash entry parent found foundParent marked
    by_contra unmarked
    obtain ⟨outside, earlier⟩ := mark_unmarked tree scan found unmarked
    rw [mark_index tree scan] at foundParent
    split at foundParent
    next within => exact outside (child_mem_subtree tree hashed scan earlier within)
    next => exact unmarked (tree.clean earlier foundParent marked)
  · intro entry found
    have outside := genesis_not_mem_subtree tree hashed scan known other
    rw [mark_index tree scan, if_neg outside] at found
    obtain ⟨earlier, alsoFound, unmarked⟩ := tree.rooted
    rw [alsoFound, some.injEq] at found
    exact found ▸ unmarked

/-- If no block but the marked one out-weighed the best header, none does afterwards. -/
theorem mark_crowned (known : state.index root = some rootEntry)
    (other : root ≠ rules.blockHash genesis) (crowned : CrownedBut state root) :
    Crowned (markSubtreeInvalid scan root state) := by
  have treeAfter := mark_tree tree hashed scan known other
  by_cases within : state.bestHeader.1 ∈ subtree scan state.store root
  · rw [markSubtreeInvalid, if_pos within] at treeAfter ⊢
    obtain ⟨entry, found, unmarked⟩ := treeAfter.rooted
    rw [recalculate_index] at found
    exact recalculate_crowned found unmarked
  · have bestSame : (markSubtreeInvalid scan root state).bestHeader = state.bestHeader := by
      rw [markSubtreeInvalid, if_neg within]
      rfl
    constructor
    · obtain ⟨entry, found, work, unmarked⟩ := crowned.best
      refine ⟨entry, ?_, by rw [bestSame, work], unmarked⟩
      rw [bestSame, mark_index tree scan, if_neg within, found]
    · intro hash entry found unmarked
      obtain ⟨outside, earlier⟩ := mark_unmarked tree scan found unmarked
      rw [bestSame]
      refine crowned.heaviest ?_ earlier unmarked
      rintro rfl
      exact outside (root_mem_subtree tree hashed scan)

omit tree hashed in
/-- Writing entries and moving the best header leave the tip and the rows alone. -/
theorem write_rows {state : BranchState} {puts : List (BlockHash × BlockIndexEntry)}
    {height : Nat} :
    (state.write { blockIndexPuts := puts }).store.getBlockHashByHeight height =
      state.store.getBlockHashByHeight height := by
  simp [BranchState.write, InMemoryStore.getBlockHashByHeight, InMemoryStore.writeBatch,
    Writes.lookup_apply, lastPut]

omit tree hashed in
theorem recalculate_placed (placed : Placed state) : Placed (recalculateBestHeader scan state) := by
  rw [recalculateBestHeader]
  split
  · exact placed
  · exact ⟨placed.tip, placed.rows⟩

omit hashed in
theorem mark_placed (placed : Placed state) {root : BlockHash} :
    Placed (markSubtreeInvalid scan root state) := by
  have regraded := mark_regraded tree scan root
  have written : Placed (writeMarks scan root state) := by
    refine placed.regraded ?_ rfl rfl fun height _ => write_rows
    rw [markSubtreeInvalid] at regraded
    split at regraded
    · rwa [recalculate_index] at regraded
    · exact regraded
  rw [markSubtreeInvalid]
  split
  · exact recalculate_placed scan written
  · exact written

/-! ## Taking marks back -/

omit tree hashed in
theorem clear_index (root hash : BlockHash) :
    (clearSubtreeInvalid scan root state).index hash =
      (if hash ∈ relatives scan root state then clearedEntry state.index hash else none).or
        (state.index hash) := by
  rw [clearSubtreeInvalid, index_write, lastPut_rowsOf]

omit tree hashed in
/-- A cleared entry is that of a marked block, without the mark. -/
theorem clearedEntry_eq {other : BlockIndexEntry}
    (cleared : clearedEntry state.index hash = some other) :
    ∃ entry, state.index hash = some entry ∧ SameBlock entry other ∧ entry.status = .invalid ∧
      other.status ≠ .invalid := by
  rw [clearedEntry, bind_eq_some_iff] at cleared
  obtain ⟨entry, found, chosen⟩ := cleared
  split at chosen
  next marked =>
    cases chosen
    refine ⟨entry, found, ⟨rfl, rfl, rfl, fun pruned => ?_⟩, marked, ?_⟩
    · by_cases bare : entry.numTx = 0 <;> simp [bare] at pruned
    · by_cases bare : entry.numTx = 0 <;> simp [bare]
  next => cases chosen

omit tree hashed in
theorem clear_regraded {root : BlockHash} :
    Regraded state.index (clearSubtreeInvalid scan root state).index := by
  refine regraded_of_puts _ (index_write state _) fun hash other member => ?_
  obtain ⟨_, cleared⟩ := mem_rowsOf.mp member
  obtain ⟨entry, found, same, _⟩ := clearedEntry_eq cleared
  exact ⟨entry, found, same⟩

omit tree hashed in
/-- A block that is marked afterwards was marked before and is no relative. -/
theorem clear_marked (found : (clearSubtreeInvalid scan root state).index hash = some entry)
    (marked : entry.status = .invalid) :
    state.index hash = some entry ∧ hash ∉ relatives scan root state := by
  rw [clear_index] at found
  split at found
  next relative =>
    obtain cleared | ⟨cleared, found⟩ := or_eq_some_iff.mp found
    · obtain ⟨_, _, _, _, unmarked⟩ := clearedEntry_eq cleared
      exact absurd marked unmarked
    · simp [clearedEntry, found, marked] at cleared
  next outside => exact ⟨by simpa using found, outside⟩

/-- With a block the ancestors hold its parent. -/
theorem ancestors_closed {fuel : Nat} {start : BlockHash}
    (enough : ∀ startEntry, state.index start = some startEntry → startEntry.height < fuel)
    (member : hash ∈ ancestors state.index fuel start) (found : state.index hash = some entry)
    (known : state.index entry.header.prevBlockhash = some parent) :
    entry.header.prevBlockhash ∈ ancestors state.index fuel start := by
  induction fuel generalizing start with
  | zero => simp [ancestors] at member
  | succ fuel ih =>
    cases foundStart : state.index start with
    | none => simp [ancestors, foundStart] at member
    | some startEntry =>
      have bound := enough startEntry foundStart
      have lower : ∀ below, state.index startEntry.header.prevBlockhash = some below →
          0 < startEntry.height ∧ below.height < fuel := by
        intro below knownBelow
        have height := (tree.child hashed foundStart knownBelow).1
        omega
      rw [ancestors, foundStart] at member ⊢
      dsimp only at member ⊢
      rcases mem_cons.mp member with rfl | deeper
      · rw [found, some.injEq] at foundStart
        subst foundStart
        obtain ⟨high, within⟩ := lower parent known
        obtain ⟨less, rfl⟩ : ∃ less, fuel = less + 1 := ⟨fuel - 1, by omega⟩
        rw [if_pos high, ancestors, known]
        simp
      · split at deeper
        next high =>
          rw [if_pos high]
          exact mem_cons_of_mem _ (ih (fun below knownBelow => (lower below knownBelow).2) deeper)
        next => simp at deeper

/-- The known parent of a relative is a relative. -/
theorem parent_relative (relative : hash ∈ relatives scan root state)
    (found : state.index hash = some entry)
    (known : state.index entry.header.prevBlockhash = some parent) :
    entry.header.prevBlockhash ∈ relatives scan root state := by
  have enough : ∀ rootEntry, state.index root = some rootEntry → ∀ startEntry,
      state.index rootEntry.header.prevBlockhash = some startEntry →
      startEntry.height < rootEntry.height + 1 := by
    intro rootEntry foundRoot startEntry foundStart
    have height := (tree.child hashed foundRoot foundStart).1
    omega
  rw [relatives] at relative ⊢
  rcases mem_append.mp relative with below | above
  · rcases parent_mem_subtree tree hashed scan found below with rfl | inside
    · refine mem_append_right _ ?_
      simp [found, ancestors, known]
    · exact mem_append_left _ inside
  · refine mem_append_right _ ?_
    cases foundRoot : state.index root with
    | none => simp [foundRoot] at above
    | some rootEntry =>
      simp only [foundRoot] at above ⊢
      exact ancestors_closed tree hashed (enough rootEntry foundRoot) above found known

/-- Taking marks back keeps the index a tree. -/
theorem clear_tree {root : BlockHash} :
    Tree rules genesis headers (clearSubtreeInvalid scan root state).index := by
  have regraded : Regraded state.index (clearSubtreeInvalid scan root state).index :=
    clear_regraded scan
  refine tree.of_regraded regraded ?_ ?_
  · intro hash entry parent found foundParent marked
    obtain ⟨knownParent, stranger⟩ := clear_marked scan foundParent marked
    obtain ⟨earlier, known, same⟩ := regraded.back found
    rw [same.header] at knownParent stranger
    have wasMarked := tree.clean known knownParent marked
    by_cases relative : hash ∈ relatives scan root state
    · exact absurd (parent_relative tree hashed scan relative known knownParent) stranger
    · rw [clear_index, if_neg relative, none_or, known, some.injEq] at found
      exact found ▸ wasMarked
  · intro entry found marked
    obtain ⟨earlier, known, unmarked⟩ := tree.rooted
    rw [(clear_marked scan found marked).1, some.injEq] at known
    exact unmarked (known ▸ marked)

omit tree hashed in
theorem clear_placed (placed : Placed state) {root : BlockHash} :
    Placed (clearSubtreeInvalid scan root state) :=
  placed.regraded (clear_regraded scan) rfl rfl fun _ _ => write_rows

end Marks

end Satd.Chain
