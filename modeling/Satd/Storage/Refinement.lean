import Satd.Storage.CoinCache

/-!
# The coin cache refines a plain map

A cache answers every coin read as one map from outpoints to coins would, to
which all batches were applied at once and in order. `overlay` is the map that a
dirty table stands for over the coins of the backing store; a cache is
`Coherent` when what it elides and what its clean cache holds agree with that
store.
-/

namespace Satd.Storage.CoinCache

open KeyedMap Satd.Bitcoin List Option Prod

/-! ## What a dirty table stands for -/

variable (dirty : Table OutPoint DirtyEntry) (base : Map OutPoint Coin)

/-- The coin an outpoint has in a dirty table over a coin map. -/
def overlay (outpoint : OutPoint) : Option Coin :=
  match dirty.lookup outpoint with
  | some entry => entry.coin?
  | none => base.lookup outpoint

/-- A fresh entry has no row below it. -/
def FreshAbsent : Prop :=
  ∀ outpoint entry, dirty.lookup outpoint = some entry → entry.isFresh = true →
    base.lookup outpoint = none

/-- What callers promise of a batch: a coin is put for an outpoint without an
entry only if it has no row below either. -/
def PutsAbsent (batch : StoreBatch) (dirty : Table OutPoint DirtyEntry)
    (base : Map OutPoint Coin) : Prop :=
  ∀ row ∈ batch.coinPuts, dirty.lookup row.1 = none → base.lookup row.1 = none

section Dirty

variable {dirty : Table OutPoint DirtyEntry} {base : Map OutPoint Coin} {batch : StoreBatch}

@[simp] theorem overlay_empty (base : Map OutPoint Coin) (outpoint : OutPoint) :
    overlay ∅ base outpoint = base.lookup outpoint := rfl

variable (old : Option DirtyEntry)

@[simp] theorem coin?_put (coin : Coin) : (DirtyEntry.put old coin).coin? = some coin := by
  unfold DirtyEntry.put
  split <;> rfl

@[simp] theorem coin?_remove (amount height : Nat) :
    (DirtyEntry.remove old amount height).coin? = none := by
  unfold DirtyEntry.remove
  split <;> rfl

theorem overlay_insert (dirty : Table OutPoint DirtyEntry) (base : Map OutPoint Coin)
    (outpoint other : OutPoint) (entry : DirtyEntry) :
    overlay (dirty.insert outpoint entry) base other =
      if outpoint = other then entry.coin? else overlay dirty base other := by
  rw [overlay, Table.lookup_insert]
  by_cases same : outpoint = other <;> simp [same, overlay]

/-- Absorbed puts answer with the last coin put. -/
theorem overlay_absorbPuts (puts : List (OutPoint × Coin)) (dirty : Table OutPoint DirtyEntry)
    (base : Map OutPoint Coin) (outpoint : OutPoint) :
    overlay (puts.foldl absorbPut dirty) base outpoint =
      (lastPut outpoint puts).or (overlay dirty base outpoint) := by
  induction puts generalizing dirty with
  | nil => rfl
  | cons row rest ih =>
    rw [foldl_cons, ih, absorbPut, overlay_insert, coin?_put, lastPut]
    by_cases same : row.1 = outpoint <;> simp [same]

/-- Absorbed removes answer with no coin. -/
theorem overlay_absorbRemoves (removes : List (OutPoint × Nat × Nat))
    (dirty : Table OutPoint DirtyEntry) (base : Map OutPoint Coin) (outpoint : OutPoint) :
    overlay (removes.foldl absorbRemove dirty) base outpoint =
      if outpoint ∈ removes.map fst then none else overlay dirty base outpoint := by
  induction removes generalizing dirty with
  | nil => simp
  | cons row rest ih =>
    rw [foldl_cons, ih, absorbRemove, overlay_insert, coin?_remove]
    by_cases listed : outpoint ∈ rest.map fst
    · simp [listed]
    · by_cases same : row.1 = outpoint
      · simp [same]
      · have different : outpoint ≠ row.1 := fun equal => same equal.symm
        simp [listed, same, different]

/-- Absorbing a batch applies it to the map the table stands for. -/
theorem overlay_absorbDirty {plain : Map OutPoint Coin}
    (stands : ∀ outpoint, overlay dirty base outpoint = plain.lookup outpoint)
    {outpoint : OutPoint} :
    overlay (absorbDirty batch dirty) base outpoint = (batch.applyCoins plain).lookup outpoint := by
  rw [absorbDirty, overlay_absorbRemoves, overlay_absorbPuts, StoreBatch.lookup_applyCoins,
    stands outpoint]

variable {old : Option DirtyEntry}

/-- A put is fresh only over nothing or over a fresh entry. -/
theorem isFresh_put {coin : Coin} (fresh : (DirtyEntry.put old coin).isFresh = true) :
    old = none ∨ ∃ entry, old = some entry ∧ entry.isFresh = true := by
  unfold DirtyEntry.put at fresh
  split at fresh
  · exact .inl rfl
  · exact .inr ⟨_, rfl, rfl⟩
  · cases fresh
  · cases fresh
  · exact .inr ⟨_, rfl, fresh⟩

/-- A remove is fresh only over a fresh entry. -/
theorem isFresh_remove {amount height : Nat}
    (fresh : (DirtyEntry.remove old amount height).isFresh = true) :
    ∃ entry, old = some entry ∧ entry.isFresh = true := by
  unfold DirtyEntry.remove at fresh
  split at fresh
  · exact ⟨_, rfl, rfl⟩
  all_goals cases fresh

section

variable (absent : FreshAbsent dirty base)
include absent

theorem FreshAbsent.insert {outpoint : OutPoint}
    {entry : DirtyEntry} (fresh : entry.isFresh = true → base.lookup outpoint = none) :
    FreshAbsent (dirty.insert outpoint entry) base := by
  intro other found lookup isFresh
  rw [Table.lookup_insert] at lookup
  split at lookup
  · next same =>
    cases lookup
    exact same ▸ fresh isFresh
  · exact absent other found lookup isFresh

/-- Absorbed puts of absent outpoints keep fresh entries absent below. -/
theorem FreshAbsent.absorbPuts {puts : List (OutPoint × Coin)}
    (promised : ∀ row ∈ puts, dirty.lookup row.1 = none → base.lookup row.1 = none) :
    FreshAbsent (puts.foldl absorbPut dirty) base := by
  induction puts generalizing dirty with
  | nil => exact absent
  | cons row rest ih =>
    apply ih
    · apply absent.insert
      intro fresh
      rcases isFresh_put fresh with missing | ⟨entry, found, entryFresh⟩
      · exact promised row mem_cons_self missing
      · exact absent row.1 entry found entryFresh
    · -- An outpoint without an entry now had none before.
      intro other listed missing
      rw [absorbPut, Table.lookup_insert] at missing
      split at missing
      · cases missing
      · exact promised other (mem_cons_of_mem _ listed) missing

theorem FreshAbsent.absorbRemoves {removes : List (OutPoint × Nat × Nat)} : FreshAbsent
    (removes.foldl absorbRemove dirty) base := by
  induction removes generalizing dirty with
  | nil => exact absent
  | cons row rest ih =>
    apply ih
    apply absent.insert
    intro fresh
    obtain ⟨entry, found, entryFresh⟩ := isFresh_remove fresh
    exact absent row.1 entry found entryFresh

theorem FreshAbsent.absorbDirty (promised : PutsAbsent batch dirty base) :
    FreshAbsent (absorbDirty batch dirty) base :=
  (absent.absorbPuts promised).absorbRemoves

end

/-- Only the outpoints of the batch get an entry. -/
theorem lookup_absorbDirty_of_untouched {outpoint : OutPoint}
    (unput : outpoint ∉ batch.coinPuts.map fst)
    (unremoved : outpoint ∉ batch.coinRemoves.map fst) :
    (absorbDirty batch dirty).lookup outpoint = dirty.lookup outpoint := by
  have untouched {α : Type}
      {absorb : Table OutPoint DirtyEntry → OutPoint × α → Table OutPoint DirtyEntry}
      (keeps : ∀ table row, row.1 ≠ outpoint →
        (absorb table row).lookup outpoint = table.lookup outpoint)
      (rows : List (OutPoint × α)) (table : Table OutPoint DirtyEntry)
      (unlisted : outpoint ∉ rows.map fst) :
      (rows.foldl absorb table).lookup outpoint = table.lookup outpoint := by
    induction rows generalizing table with
    | nil => rfl
    | cons row rest ih =>
      simp only [map_cons, mem_cons, not_or] at unlisted
      rw [foldl_cons, ih _ unlisted.2, keeps _ _ (Ne.symm unlisted.1)]
  rw [absorbDirty, untouched (fun _ _ other => ?_) _ _ unremoved,
    untouched (fun _ _ other => ?_) _ _ unput]
  · rw [absorbPut, Table.lookup_insert, if_neg other]
  · rw [absorbRemove, Table.lookup_insert, if_neg other]

end Dirty

/-! ## Draining and restoring -/

/-- A batch without coins leaves the coins alone. -/
@[simp] theorem applyCoins_nonCoin (batch : StoreBatch) (coins : Map OutPoint Coin) :
    batch.nonCoin.applyCoins coins = coins := rfl

/-- A batch without data leaves the coins alone. -/
theorem applyCoins_of_no_data {batch : StoreBatch} (empty : batch.hasData = false)
    (coins : Map OutPoint Coin) : batch.applyCoins coins = coins := by
  simp only [StoreBatch.hasData, Bool.or_eq_false_iff, Bool.not_eq_false', List.isEmpty_iff]
    at empty
  simp [StoreBatch.applyCoins, empty]

section Flush

variable {σ : Type} {cache : CoinCache σ}

/-- The pending batch holds no coins. -/
structure NoPendingCoins (cache : CoinCache σ) : Prop where
  puts : cache.pendingBatch.coinPuts = []
  removes : cache.pendingBatch.coinRemoves = []
  overwrites : cache.pendingBatch.coinOverwrites = []

section

variable (bare : NoPendingCoins cache)
include bare

theorem startFlush_coinPuts :
    cache.startFlush.2.batch.coinPuts = cache.dirty.rows.filterMap fun row =>
      row.2.flushedPut.map fun coin => (row.1, coin) := by
  simp [startFlush, bare.puts]

theorem startFlush_coinRemoves :
    cache.startFlush.2.batch.coinRemoves = cache.dirty.rows.filterMap fun row =>
      row.2.flushedRemove.map fun stored => (row.1, stored) := by
  simp [startFlush, bare.removes]

theorem startFlush_coinOverwrites :
    cache.startFlush.2.batch.coinOverwrites = cache.dirty.rows.filterMap fun row =>
      row.2.flushedOverwrite.map fun stored => (row.1, stored) := by
  simp [startFlush, bare.overwrites]

/-- The drained batch writes each entry to its outpoint. -/
theorem lookup_drained (base : Map OutPoint Coin) (outpoint : OutPoint) :
    (cache.startFlush.2.batch.applyCoins base).lookup outpoint =
      if ((cache.dirty.lookup outpoint).bind DirtyEntry.flushedRemove).isSome then none
      else ((cache.dirty.lookup outpoint).bind DirtyEntry.flushedPut).or
        (base.lookup outpoint) := by
  rw [StoreBatch.lookup_applyCoins, startFlush_coinPuts bare, startFlush_coinRemoves bare,
    Table.lastPut_filterMap_rows]
  congr 1
  rw [Table.mem_filterMap_rows, isSome_iff_exists]

/-- Over a store where fresh entries have no row, the drained batch writes what
the dirty table stands for. -/
theorem lookup_drained_eq_overlay {base : Map OutPoint Coin}
    (fresh : FreshAbsent cache.dirty base) (outpoint : OutPoint) :
    (cache.startFlush.2.batch.applyCoins base).lookup outpoint =
      overlay cache.dirty base outpoint := by
  rw [lookup_drained bare, overlay]
  cases found : cache.dirty.lookup outpoint with
  | none => simp
  | some entry =>
    have absent := fresh outpoint entry found
    cases entry with
    | present coin isFresh replaces => simp [DirtyEntry.flushedRemove, DirtyEntry.flushedPut,
        DirtyEntry.coin?]
    | spent amount height isFresh rowUnknown =>
      cases isFresh with
      | false => simp [DirtyEntry.flushedRemove, DirtyEntry.coin?]
      | true =>
        simp [DirtyEntry.flushedRemove, DirtyEntry.flushedPut, DirtyEntry.coin?, absent rfl]

end

/-- A restored entry fills a vacant place only. -/
theorem lookup_restoreEntries (rows : List (OutPoint × DirtyEntry))
    (dirty : Table OutPoint DirtyEntry) (outpoint : OutPoint) :
    (rows.foldl restoreEntry dirty).lookup outpoint =
      (dirty.lookup outpoint).or (firstPut outpoint rows) := by
  induction rows generalizing dirty with
  | nil => simp [firstPut]
  | cons row rest ih =>
    rw [foldl_cons, ih, restoreEntry, firstPut]
    cases found : dirty.lookup row.1 with
    | some entry =>
      by_cases same : row.1 = outpoint
      · subst same
        simp [found]
      · simp [same]
    | none =>
      simp only [Table.lookup_insert]
      by_cases same : row.1 = outpoint
      · subst same
        simp [found]
      · simp [same]

/-- The entry an outpoint is restored to. -/
def restoredEntry (entry : DirtyEntry) : Option DirtyEntry :=
  match entry with
  | .present coin _ replaces => some (.present coin false replaces)
  | .spent amount height false rowUnknown => some (.spent amount height false rowUnknown)
  | .spent _ _ true _ => none

/-- A rowless remove is drained from an entry without a known row. -/
theorem mem_rowlessRemoves {outpoint : OutPoint} :
    outpoint ∈ cache.startFlush.2.rowlessRemoves ↔
      ∃ entry, cache.dirty.lookup outpoint = some entry ∧ entry.isRowless = true := by
  simp only [startFlush, Table.rows, List.mem_map, List.mem_filter]
  constructor
  · rintro ⟨row, ⟨⟨listed, inTable, rfl⟩, rowless⟩, rfl⟩
    exact ⟨listed.2, AList.mem_lookup_iff.mpr inTable, rowless⟩
  · rintro ⟨entry, found, rowless⟩
    exact ⟨(outpoint, entry), ⟨⟨⟨outpoint, entry⟩, AList.mem_lookup_iff.mp found, rfl⟩, rowless⟩,
      rfl⟩

/-- Every drained entry is restored, fresh spends apart. -/
theorem firstPut_restoredEntries (bare : NoPendingCoins cache) (outpoint : OutPoint) :
    firstPut outpoint (restoredEntries cache.startFlush.2) =
      (cache.dirty.lookup outpoint).bind restoredEntry := by
  have puts : firstPut outpoint cache.startFlush.2.batch.coinPuts =
      (cache.dirty.lookup outpoint).bind DirtyEntry.flushedPut := by
    rw [startFlush_coinPuts bare, firstPut_eq_lastPut (Table.nodup_filterMap_rows _ _),
      Table.lastPut_filterMap_rows]
  have removes : firstPut outpoint cache.startFlush.2.batch.coinRemoves =
      (cache.dirty.lookup outpoint).bind DirtyEntry.flushedRemove := by
    rw [startFlush_coinRemoves bare, firstPut_eq_lastPut (Table.nodup_filterMap_rows _ _),
      Table.lastPut_filterMap_rows]
  have overwrites : lastPut outpoint cache.startFlush.2.batch.coinOverwrites =
      (cache.dirty.lookup outpoint).bind DirtyEntry.flushedOverwrite := by
    rw [startFlush_coinOverwrites bare, Table.lastPut_filterMap_rows]
  rw [restoredEntries, firstPut_append, firstPut_map, firstPut_map
    (fun row : OutPoint × Nat × Nat =>
      DirtyEntry.spent row.2.1 row.2.2 false (row.1 ∈ cache.startFlush.2.rowlessRemoves)), puts,
    removes]
  simp only [overwrites, mem_rowlessRemoves]
  cases found : cache.dirty.lookup outpoint with
  | none => rfl
  | some entry =>
    cases entry with
    | present coin fresh replaces => rfl
    | spent amount height fresh rowUnknown =>
      cases fresh with
      | true => rfl
      | false =>
        simp [DirtyEntry.flushedPut, DirtyEntry.flushedRemove, restoredEntry, DirtyEntry.isRowless]

theorem NoPendingCoins.absorbCoins (bare : NoPendingCoins cache) (batch : StoreBatch) :
    NoPendingCoins (cache.absorbCoins batch) := by
  unfold CoinCache.absorbCoins
  split
  · exact bare
  · exact { bare with }

/-- After a drain nothing is dirty, and the clean cache is as before. -/
theorem startFlush_fields (cache : CoinCache σ) :
    cache.startFlush.1.inner = cache.inner ∧ cache.startFlush.1.dirty = ∅ ∧
      cache.startFlush.1.clean = cache.clean ∧ cache.startFlush.1.cleanGen = cache.cleanGen ∧
      cache.startFlush.2.generation = cache.cleanGen ∧ NoPendingCoins cache.startFlush.1 :=
  ⟨rfl, rfl, rfl, rfl, rfl, ⟨rfl, rfl, rfl⟩⟩

/-- A drained put is an unspent entry's coin. -/
theorem mem_promote {row : OutPoint × Coin} (listed : row ∈ cache.startFlush.2.promote) :
    ∃ entry, cache.dirty.lookup row.1 = some entry ∧ entry.coin? = some row.2 := by
  simp only [startFlush, Table.rows, List.mem_filterMap, List.mem_map] at listed
  obtain ⟨_, ⟨stored, inTable, rfl⟩, kept⟩ := listed
  obtain ⟨coin, put, rfl⟩ := map_eq_some_iff.mp kept
  refine ⟨stored.2, AList.mem_lookup_iff.mpr inTable, ?_⟩
  cases entry : stored.2 <;> simp_all [DirtyEntry.flushedPut, DirtyEntry.coin?]

end Flush

/-! ## Coherent caches -/

section Coherent

variable {σ : Type} [Backing σ]

/-- The coin the cache stands for. -/
def logical (cache : CoinCache σ) (outpoint : OutPoint) : Option Coin :=
  overlay cache.dirty (Backing.coins cache.inner) outpoint

/-- Fresh entries have no row in the backing store, the clean cache holds rows of
the backing store that no entry hides, and no coins are pending elsewhere. -/
structure Coherent (cache : CoinCache σ) : Prop where
  fresh : FreshAbsent cache.dirty (Backing.coins cache.inner)
  clean : ∀ outpoint coin, cache.clean.lookup outpoint = some coin →
    cache.dirty.lookup outpoint = none ∧ (Backing.coins cache.inner).lookup outpoint = some coin
  bare : NoPendingCoins cache

variable {cache : CoinCache σ}

/-- A cache that has absorbed nothing is coherent. -/
theorem Coherent.initial (inner : σ) : Coherent ({ inner := inner } : CoinCache σ) := by
  constructor
  · intro outpoint entry found
    cases found
  · intro outpoint coin found
    simp at found
  · exact ⟨rfl, rfl, rfl⟩

variable {outpoint : OutPoint} {first second : CoinCache σ}

/-- What is known of an outpoint without asking the backing store is the coin the
cache stands for. -/
theorem Coherent.cachedCoin (coherent : Coherent cache) {known : Option Coin}
    (cached : cache.cachedCoin outpoint = some known) :
    known = cache.logical outpoint := by
  rw [CoinCache.cachedCoin] at cached
  rw [logical, overlay]
  cases found : cache.dirty.lookup outpoint with
  | some entry =>
    rw [found] at cached
    exact (some.inj cached).symm
  | none =>
    rw [found] at cached
    obtain ⟨coin, held, rfl⟩ := map_eq_some_iff.mp cached
    exact (coherent.clean outpoint coin held).2.symm

/-- A miss reads the coin the cache stands for from the backing store. -/
theorem logical_of_miss (missed : cache.cachedCoin outpoint = none) :
    cache.logical outpoint = (Backing.coins cache.inner).lookup outpoint ∧
      cache.dirty.lookup outpoint = none := by
  rw [CoinCache.cachedCoin] at missed
  cases found : cache.dirty.lookup outpoint with
  | some entry =>
    rw [found] at missed
    cases missed
  | none => simp [logical, overlay, found]

/-! ### Reads -/

/-- A read of one coin is a read of a batch of one. -/
theorem getCoin_eq (cache : CoinCache σ) (outpoint : OutPoint) :
    (cache.getCoin outpoint).1 =
      (cache.cachedCoin outpoint).getD ((Backing.coins cache.inner).lookup outpoint) := by
  rw [getCoin, CoinCache.cachedCoin]
  cases cache.dirty.lookup outpoint with
  | some entry => rfl
  | none =>
    cases cache.clean.lookup outpoint with
    | some coin => rfl
    | none => cases (Backing.coins cache.inner).lookup outpoint <;> rfl

section

variable (coherent : Coherent cache)
include coherent

theorem Coherent.answer (outpoint : OutPoint) :
    (cache.cachedCoin outpoint).getD ((Backing.coins cache.inner).lookup outpoint) =
      cache.logical outpoint := by
  cases cached : cache.cachedCoin outpoint with
  | some known => exact coherent.cachedCoin cached
  | none => exact (logical_of_miss cached).1.symm

theorem Coherent.getCoin (outpoint : OutPoint) :
    (cache.getCoin outpoint).1 = cache.logical outpoint := by
  rw [getCoin_eq, coherent.answer]

theorem Coherent.getCoinsBatch (outpoints : List OutPoint) :
    (cache.getCoinsBatch outpoints).1 = outpoints.map cache.logical := by
  rw [CoinCache.getCoinsBatch]
  exact map_congr_left fun outpoint _ => coherent.answer outpoint

theorem Coherent.hasCoin (outpoint : OutPoint) :
    cache.hasCoin outpoint = (cache.logical outpoint).isSome := by
  rw [CoinCache.hasCoin, logical, overlay]
  cases found : cache.dirty.lookup outpoint with
  | some entry => cases entry <;> rfl
  | none =>
    cases held : cache.clean.lookup outpoint with
    | none => simp
    | some coin => simp [(coherent.clean outpoint coin held).2]

/-- Coins that no entry hides may enter the clean cache. -/
theorem Coherent.putClean {rows : List (OutPoint × Coin)}
    (stored : ∀ row ∈ rows, cache.dirty.lookup row.1 = none ∧
      (Backing.coins cache.inner).lookup row.1 = some row.2) :
    Coherent { cache with clean := putAll cache.clean rows } := by
  refine ⟨coherent.fresh, ?_, ⟨coherent.bare.puts, coherent.bare.removes, coherent.bare.overwrites⟩⟩
  intro outpoint coin held
  rw [lookup_putAll] at held
  rcases or_eq_some_iff.mp held with added | ⟨-, before⟩
  · exact stored (outpoint, coin) (mem_of_lastPut added)
  · exact coherent.clean outpoint coin before

theorem Coherent.afterGetCoinsBatch {outpoints : List OutPoint} :
    Coherent (cache.getCoinsBatch outpoints).2 := by
  apply coherent.putClean
  intro row listed
  obtain ⟨outpoint, missed, found⟩ := mem_filterMap.mp listed
  obtain ⟨coin, stored, rfl⟩ := map_eq_some_iff.mp found
  have miss : cache.cachedCoin outpoint = none := by simpa using (mem_filter.mp missed).2
  exact ⟨(logical_of_miss miss).2, stored⟩

theorem Coherent.afterGetCoin (outpoint : OutPoint) : Coherent (cache.getCoin outpoint).2 := by
  rw [CoinCache.getCoin]
  cases found : cache.dirty.lookup outpoint with
  | some entry => exact coherent
  | none =>
    cases held : cache.clean.lookup outpoint with
    | some coin => exact coherent
    | none =>
      cases stored : (Backing.coins cache.inner).lookup outpoint with
      | none => exact coherent
      | some coin =>
        have inserted : Coherent { cache with clean := putAll cache.clean [(outpoint, coin)] } := by
          apply coherent.putClean
          intro row listed
          rw [mem_singleton.mp listed]
          exact ⟨found, stored⟩
        exact inserted

theorem Coherent.evictClean (outpoint : OutPoint) : Coherent (cache.evictClean outpoint) := by
  refine ⟨coherent.fresh, ?_, ⟨coherent.bare.puts, coherent.bare.removes, coherent.bare.overwrites⟩⟩
  intro other coin held
  rw [CoinCache.evictClean, lookup_erase] at held
  split at held
  · cases held
  · exact coherent.clean other coin held

/-! ### Absorbing -/

theorem Coherent.absorbCoins {batch : StoreBatch}
    (promised : PutsAbsent batch cache.dirty (Backing.coins cache.inner)) :
    Coherent (cache.absorbCoins batch) := by
  unfold CoinCache.absorbCoins
  split
  · exact coherent
  · refine ⟨coherent.fresh.absorbDirty promised, ?_, ⟨coherent.bare.puts, coherent.bare.removes,
      coherent.bare.overwrites⟩⟩
    intro outpoint coin held
    simp only [lookup_removeAll] at held
    split at held
    · cases held
    · next unremoved =>
      split at held
      · cases held
      · next unput =>
        simp only [lookup_absorbDirty_of_untouched unput unremoved]
        exact coherent.clean outpoint coin held

end

/-- Absorbing the coins of a batch applies it to the map the cache stands for. -/
theorem logical_absorbCoins {batch : StoreBatch} {plain : Map OutPoint Coin}
    (stands : ∀ outpoint, cache.logical outpoint = plain.lookup outpoint) (outpoint : OutPoint) :
    (cache.absorbCoins batch).logical outpoint = (batch.applyCoins plain).lookup outpoint := by
  unfold CoinCache.absorbCoins
  split
  · next empty =>
    obtain ⟨noPuts, noRemoves⟩ := Nat.add_eq_zero_iff.mp empty
    rw [stands, StoreBatch.applyCoins, length_eq_zero_iff.mp noPuts,
      length_eq_zero_iff.mp noRemoves]
    rfl
  · exact overlay_absorbDirty stands

/-- Two caches whose coins are the same: what is dirty, clean and counted, and
what the backing store holds. -/
structure SameCoins (first second : CoinCache σ) : Prop where
  coins : Backing.coins first.inner = Backing.coins second.inner
  dirty : first.dirty = second.dirty
  clean : first.clean = second.clean
  cleanGen : first.cleanGen = second.cleanGen
  countDelta : first.countDelta = second.countDelta
  amountDelta : first.amountDelta = second.amountDelta

theorem SameCoins.logical (same : SameCoins first second) (outpoint : OutPoint) :
    first.logical outpoint = second.logical outpoint := by
  rw [CoinCache.logical, CoinCache.logical, same.dirty, same.coins]

theorem SameCoins.coherent (same : SameCoins first second) (coherent : Coherent second)
    (bare : NoPendingCoins first) : Coherent first := by
  constructor
  · rw [same.dirty, same.coins]
    exact coherent.fresh
  · rw [same.clean, same.dirty, same.coins]
    exact coherent.clean
  · exact bare

theorem passThrough_sameCoins (written : Bool) (batch : StoreBatch) (cache : CoinCache σ) :
    SameCoins (cache.passThrough written batch) cache := by
  unfold passThrough
  cases written with
  | false => exact ⟨rfl, rfl, rfl, rfl, rfl, rfl⟩
  | true =>
    refine ⟨?_, rfl, rfl, rfl, rfl, rfl⟩
    simp [Backing.coins_writeBatch]

/-- Everything a batch does to coins happens when its coins are absorbed. -/
theorem absorbBatch_sameCoins (written : Bool) (batch : StoreBatch) (cache : CoinCache σ) :
    SameCoins (cache.absorbBatch written batch) (cache.absorbCoins batch) := by
  have overlaid : SameCoins ((cache.absorbCoins batch).absorbOverlays batch).1
      (cache.absorbCoins batch) := ⟨rfl, rfl, rfl, rfl, rfl, rfl⟩
  simp only [absorbBatch]
  split
  · split
    · have passed := passThrough_sameCoins written
        ((cache.absorbCoins batch).absorbOverlays batch).2
        ((cache.absorbCoins batch).absorbOverlays batch).1
      exact { passed with }
    · exact ⟨rfl, rfl, rfl, rfl, rfl, rfl⟩
  · exact overlaid

theorem NoPendingCoins.absorbBatch (bare : NoPendingCoins cache) (written : Bool)
    (batch : StoreBatch) : NoPendingCoins (cache.absorbBatch written batch) := by
  have absorbed := bare.absorbCoins batch
  have overlaid : NoPendingCoins ((cache.absorbCoins batch).absorbOverlays batch).1 :=
    { absorbed with }
  simp only [CoinCache.absorbBatch]
  split
  · split
    · unfold passThrough
      cases written with
      | false => exact { overlaid with }
      | true => exact { overlaid with }
    · constructor <;>
        simp [StoreBatch.merge, StoreBatch.nonCoin, overlaid.puts, overlaid.removes,
          overlaid.overwrites]
  · exact overlaid

section

variable (coherent : Coherent cache)
include coherent

theorem Coherent.absorbBatch (written : Bool) {batch : StoreBatch}
    (promised : PutsAbsent batch cache.dirty (Backing.coins cache.inner)) :
    Coherent (cache.absorbBatch written batch) :=
  (absorbBatch_sameCoins written batch cache).coherent (coherent.absorbCoins promised)
    (coherent.bare.absorbBatch written batch)

/-! ### Flushing -/

/-- Writing the drained batch leaves in the backing store what the cache stood
for. -/
theorem Coherent.coins_written (outpoint : OutPoint) :
    (Backing.coins (Backing.writeBatch cache.inner cache.startFlush.2.batch)).lookup outpoint =
      cache.logical outpoint := by
  rw [Backing.coins_writeBatch, lookup_drained_eq_overlay coherent.bare coherent.fresh]
  rfl

/-- A batch without data holds no coins, so nothing was dirty but fresh spends. -/
theorem Coherent.coins_of_no_data
    (empty : cache.startFlush.2.batch.hasData = false) (outpoint : OutPoint) :
    (Backing.coins cache.inner).lookup outpoint = cache.logical outpoint := by
  rw [← coherent.coins_written, Backing.coins_writeBatch, applyCoins_of_no_data empty]

/-- A successful flush leaves a coherent cache that stands for the same coins, all
of them in the backing store. -/
theorem Coherent.settled {inner : σ}
    (stored : ∀ outpoint, (Backing.coins inner).lookup outpoint = cache.logical outpoint) :
    Coherent ({ cache.startFlush.1 with inner }.promote cache.startFlush.2) := by
  have kept : Coherent { cache.startFlush.1 with inner } := by
    refine ⟨?_, ?_, ⟨rfl, rfl, rfl⟩⟩
    · intro outpoint entry found
      cases found
    · intro outpoint coin held
      obtain ⟨unhidden, row⟩ := coherent.clean outpoint coin held
      refine ⟨rfl, ?_⟩
      simp only [stored, logical, overlay, unhidden]
      exact row
  simp only [promote, startFlush_fields, if_true]
  apply kept.putClean
  intro row listed
  obtain ⟨entry, found, coin⟩ := mem_promote listed
  refine ⟨rfl, ?_⟩
  simp only [stored, logical, overlay, found]
  exact coin

/-- A handed-back batch is restored to a coherent cache. -/
theorem Coherent.restored :
    Coherent (cache.startFlush.1.restoreAfterFailedFlush cache.startFlush.2) := by
  constructor
  · intro outpoint entry found fresh
    simp only [restoreAfterFailedFlush, lookup_restoreEntries, startFlush_fields,
      AList.lookup_empty, none_or, firstPut_restoredEntries coherent.bare] at found
    obtain ⟨drained, -, restored⟩ := bind_eq_some_iff.mp found
    unfold restoredEntry at restored
    split at restored <;> cases restored <;> cases fresh
  · intro outpoint coin held
    obtain ⟨unhidden, row⟩ := coherent.clean outpoint coin held
    refine ⟨?_, row⟩
    simp [restoreAfterFailedFlush, lookup_restoreEntries, startFlush_fields,
      firstPut_restoredEntries coherent.bare, unhidden]
  · constructor <;> simp [restoreAfterFailedFlush, StoreBatch.merge, StoreBatch.nonCoin, startFlush]

/-- A restored cache stands for the same coins. -/
theorem Coherent.logical_restored {outpoint : OutPoint} :
    (cache.startFlush.1.restoreAfterFailedFlush cache.startFlush.2).logical outpoint =
      cache.logical outpoint := by
  simp only [logical, overlay, restoreAfterFailedFlush, lookup_restoreEntries, startFlush_fields,
    AList.lookup_empty, none_or, firstPut_restoredEntries coherent.bare]
  cases found : cache.dirty.lookup outpoint with
  | none => rfl
  | some entry =>
    have absent := coherent.fresh outpoint entry found
    cases entry with
    | present coin fresh replaces => rfl
    | spent amount height fresh rowUnknown =>
      cases fresh with
      | false => rfl
      | true => exact absent rfl

variable {outcome : WriteOutcome}

/-- A flush that loses nothing keeps a coherent cache coherent. -/
theorem Coherent.flushInner (kept : outcome ≠ .lost) : Coherent (cache.flushInner outcome).1 := by
  simp only [CoinCache.flushInner]
  split
  · cases outcome with
    | written => exact coherent.settled coherent.coins_written
    | handedBack => exact coherent.restored
    | lost => exact absurd rfl kept
  · next empty =>
    have noData : cache.startFlush.2.batch.hasData = false := by simpa using empty
    exact coherent.settled (coherent.coins_of_no_data noData)

/-- A flush that loses nothing does not change the coins the cache stands for. -/
theorem Coherent.logical_flushInner (kept : outcome ≠ .lost) (outpoint : OutPoint) :
    (cache.flushInner outcome).1.logical outpoint = cache.logical outpoint := by
  simp only [CoinCache.flushInner]
  split
  · cases outcome with
    | written =>
      simp only [promote, startFlush_fields, if_true, logical, overlay_empty]
      exact coherent.coins_written outpoint
    | handedBack => exact coherent.logical_restored
    | lost => exact absurd rfl kept
  · next empty =>
    have noData : cache.startFlush.2.batch.hasData = false := by simpa using empty
    simp only [promote, startFlush_fields, if_true, logical, overlay_empty]
    exact coherent.coins_of_no_data noData outpoint

end

/-- A flush succeeds only by writing what there is to write. -/
theorem flushInner_of_success {outcome : WriteOutcome}
    (succeeded : (cache.flushInner outcome).2 = true) :
    cache.flushInner outcome = cache.flushInner .written := by
  simp only [CoinCache.flushInner] at succeeded ⊢
  split
  · next data =>
    cases outcome with
    | written => rfl
    | handedBack => simp [data] at succeeded
    | lost => simp [data] at succeeded
  · rfl

/-- After a successful flush nothing is dirty. -/
theorem dirty_flushInner_written (cache : CoinCache σ) :
    (cache.flushInner .written).1.dirty = ∅ := by
  simp only [CoinCache.flushInner]
  split <;> simp only [promote, startFlush_fields, if_true]

end Coherent

/-! ## Runs -/

section Runs

variable {σ : Type} [Backing σ]

/-- The caches reached from an empty one over some backing store, each with the
map to which all absorbed batches were applied directly. -/
inductive Reached : CoinCache σ → Map OutPoint Coin → Prop where
  | start (inner : σ) : Reached { inner } (Backing.coins inner)
  | absorb {cache : CoinCache σ} {plain : Map OutPoint Coin} (written : Bool) (batch : StoreBatch)
      (reached : Reached cache plain)
      (promised : PutsAbsent batch cache.dirty (Backing.coins cache.inner)) :
      Reached (cache.absorbBatch written batch) (batch.applyCoins plain)
  | flush {cache : CoinCache σ} {plain : Map OutPoint Coin} (outcome : WriteOutcome)
      (kept : outcome ≠ .lost) (reached : Reached cache plain) :
      Reached (cache.flushInner outcome).1 plain
  | evict {cache : CoinCache σ} {plain : Map OutPoint Coin} (outpoint : OutPoint)
      (reached : Reached cache plain) : Reached (cache.evictClean outpoint) plain
  | getCoin {cache : CoinCache σ} {plain : Map OutPoint Coin} (outpoint : OutPoint)
      (reached : Reached cache plain) : Reached (cache.getCoin outpoint).2 plain
  | getCoinsBatch {cache : CoinCache σ} {plain : Map OutPoint Coin} (outpoints : List OutPoint)
      (reached : Reached cache plain) : Reached (cache.getCoinsBatch outpoints).2 plain

variable {cache : CoinCache σ} {plain : Map OutPoint Coin}

theorem logical_getCoin (cache : CoinCache σ) (outpoint other : OutPoint) :
    (cache.getCoin outpoint).2.logical other = cache.logical other := by
  rw [CoinCache.getCoin]
  cases cache.dirty.lookup outpoint with
  | some entry => rfl
  | none =>
    cases cache.clean.lookup outpoint with
    | some coin => rfl
    | none => cases (Backing.coins cache.inner).lookup outpoint <;> rfl

/-- Every reached cache is coherent and stands for the plain map. -/
theorem Reached.refines (reached : Reached cache plain) :
    Coherent cache ∧ ∀ outpoint, cache.logical outpoint = plain.lookup outpoint := by
  induction reached with
  | start inner => exact ⟨.initial inner, fun _ => rfl⟩
  | @absorb cache plain written batch reached promised ih =>
    obtain ⟨coherent, stands⟩ := ih
    refine ⟨coherent.absorbBatch written promised, ?_⟩
    intro outpoint
    rw [(absorbBatch_sameCoins written batch cache).logical, logical_absorbCoins stands]
  | flush outcome kept reached ih =>
    obtain ⟨coherent, stands⟩ := ih
    refine ⟨coherent.flushInner kept, ?_⟩
    intro outpoint
    rw [coherent.logical_flushInner kept, stands]
  | evict outpoint reached ih =>
    obtain ⟨coherent, stands⟩ := ih
    exact ⟨coherent.evictClean outpoint, stands⟩
  | getCoin outpoint reached ih =>
    obtain ⟨coherent, stands⟩ := ih
    refine ⟨coherent.afterGetCoin outpoint, ?_⟩
    intro other
    rw [logical_getCoin, stands]
  | getCoinsBatch outpoints reached ih =>
    obtain ⟨coherent, stands⟩ := ih
    exact ⟨coherent.afterGetCoinsBatch, stands⟩

/-- In every reached cache each coin read answers as the plain map does, and a
successful flush leaves exactly the plain map in the backing store. -/
theorem reads_refine_plain_map (reached : Reached cache plain) :
    (∀ outpoint, (cache.getCoin outpoint).1 = plain.lookup outpoint) ∧
    (∀ outpoint, cache.hasCoin outpoint = (plain.lookup outpoint).isSome) ∧
    (∀ outpoints, (cache.getCoinsBatch outpoints).1 = outpoints.map plain.lookup) ∧
    ∀ outcome, (cache.flushInner outcome).2 = true →
      Backing.coins (cache.flushInner outcome).1.inner = plain := by
  obtain ⟨coherent, stands⟩ := reached.refines
  refine ⟨?_, ?_, ?_, ?_⟩
  · intro outpoint
    rw [coherent.getCoin, stands]
  · intro outpoint
    rw [coherent.hasCoin, stands]
  · intro outpoints
    rw [coherent.getCoinsBatch]
    exact map_congr_left fun outpoint _ => stands outpoint
  · intro outcome succeeded
    have kept : WriteOutcome.written ≠ .lost := by decide
    rw [flushInner_of_success succeeded]
    apply Finmap.ext_lookup
    intro outpoint
    have unhidden := coherent.logical_flushInner kept outpoint
    rw [logical, dirty_flushInner_written, overlay_empty, stands] at unhidden
    exact unhidden

end Runs

namespace Sample

def firstOutpoint : OutPoint := ⟨Hash256.repeated 1, 0⟩

def secondOutpoint : OutPoint := ⟨Hash256.repeated 2, 0⟩

def firstCoin : Coin := ⟨5_000, [0x51], 100, false, 7⟩

def secondCoin : Coin := ⟨4_000, [0x52], 101, false, 8⟩

/-- A store with one coin. -/
def store : InMemoryStore := { coins := putAll ∅ [(firstOutpoint, firstCoin)] }

/-- A batch that spends the stored coin and creates another. -/
def spending : StoreBatch where
  coinPuts := [(secondOutpoint, secondCoin)]
  coinRemoves := [(firstOutpoint, 5_000, 100)]

/-- A cache that absorbed the batch and failed to flush it. -/
def retried : CoinCache InMemoryStore :=
  ((({ inner := store } : CoinCache InMemoryStore).absorbBatch true spending).flushInner
    .handedBack).1

theorem reached_retried : Reached retried (spending.applyCoins store.coins) := by
  apply Reached.flush .handedBack (by decide)
  apply Reached.absorb true spending (.start store)
  have absent : ∀ row ∈ spending.coinPuts, store.coins.lookup row.1 = none := by decide +kernel
  intro row listed _
  exact absent row listed

end Sample

/-- After a failed flush the spent coin is still gone and the created one still
there, and the next flush writes both changes. -/
theorem reads_refine_plain_map_retried :
    (Sample.retried.getCoin Sample.firstOutpoint).1 = none ∧
    (Sample.retried.getCoin Sample.secondOutpoint).1 = some Sample.secondCoin ∧
    (Sample.retried.flushInner .written).1.inner.coins =
      Sample.spending.applyCoins Sample.store.coins := by
  obtain ⟨getCoin, -, -, flushed⟩ := reads_refine_plain_map Sample.reached_retried
  refine ⟨?_, ?_, ?_⟩
  · rw [getCoin]
    decide +kernel
  · rw [getCoin]
    decide +kernel
  · exact flushed .written (by decide +kernel)

end Satd.Storage.CoinCache
